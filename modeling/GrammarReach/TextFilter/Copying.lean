import GrammarReach.Files.Storage
import GrammarReach.TextFilter.Options
import GrammarReach.TextFilter.Quoting

/-!
# Copying files

The filter that copies files and its input, one after the other.  On the way it
can number lines, squeeze empty ones and make bytes visible.
-/

namespace GrammarReach

namespace TextFilter

/-- What can be asked of a copy. -/
inductive CopyOption where
  | numberFilled
  | number
  | squeezeEmpty
  | showControl
  | showEnds
  | showTabs
  | showControlAndEnds
  | showControlAndTabs
  | showAll
  | unbuffered
  | manual
deriving DecidableEq, Repr

def copyOptions : OptionTable CopyOption where
  letters :=
    [('b', .numberFilled), ('n', .number), ('s', .squeezeEmpty), ('v', .showControl),
      ('E', .showEnds), ('T', .showTabs), ('e', .showControlAndEnds),
      ('t', .showControlAndTabs), ('A', .showAll), ('u', .unbuffered)]
  names :=
    [("number-nonblank", .numberFilled), ("number", .number), ("squeeze-blank", .squeezeEmpty),
      ("show-nonprinting", .showControl), ("show-ends", .showEnds), ("show-tabs", .showTabs),
      ("show-all", .showAll), ("help", .manual), ("version", .manual)]
  mixed := true

/-- How lines are copied. -/
structure CopyStyle where
  numbersFilled : Bool
  numbersEmpty : Bool
  squeezesEmpty : Bool
  showsControl : Bool
  showsEnds : Bool
  showsTabs : Bool
deriving DecidableEq, Repr

def CopyStyle.ofOptions (options : List CopyOption) : CopyStyle where
  numbersFilled := options.contains .numberFilled || options.contains .number
  numbersEmpty := options.contains .number && !options.contains .numberFilled
  squeezesEmpty := options.contains .squeezeEmpty
  showsControl := options.any fun option =>
    [.showControl, .showControlAndEnds, .showControlAndTabs, .showAll].contains option
  showsEnds := options.any fun option =>
    [.showEnds, .showControlAndEnds, .showAll].contains option
  showsTabs := options.any fun option =>
    [.showTabs, .showControlAndTabs, .showAll].contains option

/-- Where in its lines a copy is. -/
inductive CopyPlace where
  | insideLine
  /-- At the start of a line behind a filled line or at the very start. -/
  | lineStart
  | afterEmptyLine
  | afterEmptyLines
deriving DecidableEq, Repr

def lineNumber (number : Nat) : List UInt8 :=
  let digits := Text.bytesOf (Text.decimal number)
  List.replicate (6 - digits.length) (ascii ' ') ++ digits ++ [9]

/-- A byte that is not printed as it is, made visible. -/
def visibleByte (byte : UInt8) : List UInt8 :=
  let caret (low : UInt8) : List UInt8 :=
    if low < 32 then [ascii '^', low + 64]
    else if low = 127 then [ascii '^', ascii '?']
    else [low]
  if byte < 128 then caret byte else [ascii 'M', ascii '-'] ++ caret (byte - 128)

namespace CopyStyle

/-- A byte inside a line; `next` is the byte behind it. -/
def byteText (style : CopyStyle) (byte : UInt8) (next : Option UInt8) : List UInt8 :=
  if byte = 9 then
    if style.showsTabs then visibleByte byte else [byte]
  else if style.showsControl then
    visibleByte byte
  else if style.showsEnds && byte == 13 && next == some 10 then
    visibleByte byte
  else
    [byte]

def endText (style : CopyStyle) : List UInt8 :=
  if style.showsEnds then [ascii '$', 10] else [10]

/-- Copies bytes.  `number` is the number of the next line that gets one. -/
def copyBytes (style : CopyStyle) : CopyPlace → Nat → List UInt8 → List UInt8
  | _, _, [] => []
  | place, number, byte :: rest =>
      if byte = 10 then
        let empty (next : CopyPlace) : List UInt8 :=
          if style.numbersEmpty then
            lineNumber number ++ style.endText ++ style.copyBytes next (number + 1) rest
          else
            style.endText ++ style.copyBytes next number rest
        match place with
        | .insideLine => style.endText ++ style.copyBytes .lineStart number rest
        | .lineStart => empty .afterEmptyLine
        | .afterEmptyLine | .afterEmptyLines =>
            if style.squeezesEmpty then style.copyBytes .afterEmptyLines number rest
            else empty .afterEmptyLines
      else
        let own := style.byteText byte rest.head?
        if place = .insideLine ∨ !style.numbersFilled then
          own ++ style.copyBytes .insideLine number rest
        else
          lineNumber number ++ own ++ style.copyBytes .insideLine (number + 1) rest

end CopyStyle

variable {m : Type → Type} [Monad m]

/-- What the operands of a copy give: the bytes of all files and the complaints
about those that cannot be read.  The input can be read only once. -/
def gather (storage : Storage m) (program : String) :
    List String → List UInt8 → m (List UInt8 × List UInt8)
  | [], _ => return ([], [])
  | "-" :: rest, input => do
      let (bytes, complaints) ← gather storage program rest []
      return (input ++ bytes, complaints)
  | name :: rest, input => do
      match ← storage.readBytes name with
      | .ok content =>
          let (bytes, complaints) ← gather storage program rest input
          return (content.toList ++ bytes, complaints)
      | .error reason =>
          let (bytes, complaints) ← gather storage program rest input
          let own := complaint program
            (quotedFileName name ++ Text.bytesOf (": " ++ reason.description))
          return (bytes, own ++ complaints)

def copy (storage : Storage m) (program : String) (arguments : List String)
    (input : List UInt8) : m FilterOutcome := do
  let read := copyOptions.read arguments
  if read.options.contains .manual then
    return .printed []
  match read.fault with
  | some fault => return .failed (complaint program fault.text ++ manualHint program)
  | none =>
      let operands := if read.operands.isEmpty then ["-"] else read.operands
      let (bytes, complaints) ← gather storage program operands input
      return {
        succeeded := complaints.isEmpty
        output := (CopyStyle.ofOptions read.options).copyBytes .lineStart 1 bytes
        complaint := complaints
        readsInput := operands.contains "-" }

end TextFilter

end GrammarReach
