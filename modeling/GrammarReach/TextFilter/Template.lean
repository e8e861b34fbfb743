import GrammarReach.Text.Numeral
import GrammarReach.TextFilter.Extended
import GrammarReach.TextFilter.Quoting

/-!
# Printing templates

The filter that prints a template.  Backslash escapes stand for bytes, and
conversions such as `%s` take the next argument.  The template is used again
while arguments are left, as long as each round takes some.
-/

namespace GrammarReach

namespace TextFilter

/-- A width or a number of places: written in the template or taken from an
argument. -/
inductive Amount where
  | written (value : Nat)
  | argument
deriving DecidableEq, Repr

/-- A conversion as it stands in a template. -/
structure Conversion where
  /-- The whole text, from the percent sign to the letter. -/
  text : List UInt8
  flags : List UInt8
  width : Option Amount
  precision : Option Amount
  /-- The letter that says what is printed; there is none at the end of the
  template. -/
  letter : Option UInt8
deriving DecidableEq, Repr

/-- A part of a template. -/
inductive TemplatePart where
  | bytes (values : List UInt8)
  | conversion (conversion : Conversion)
  | escapedArgument
  /-- An argument as a shell would read it back. -/
  | quotedArgument
  | stop
  | fault (complaint : List UInt8)
deriving DecidableEq, Repr

/-- A character as an escape with the given letter. -/
def characterEscape (letter : Char) (digits code : Nat) : List UInt8 :=
  let text := Magnitude.hexDigits digits code
  let capitals := text.map fun byte =>
    if ascii 'a' ≤ byte && byte ≤ ascii 'f' then byte - 32 else byte
  [ascii '\\', ascii letter] ++ capitals

/-- What an escape with the number of a character stands for.  Only ASCII
characters are printed as such. -/
def characterPart (letter : Char) (digits code : Nat) : TemplatePart :=
  if 0xD800 ≤ code ∧ code ≤ 0xDFFF then
    .fault (Text.bytesOf "invalid universal character name " ++
      [ascii '\\', ascii letter] ++ Magnitude.hexDigits digits code)
  else if code < 128 then
    .bytes [code.toUInt8]
  else if code < 0x10000 then
    .bytes (characterEscape 'u' 4 code)
  else
    .bytes (characterEscape 'U' 8 code)

def missingDigits : TemplatePart :=
  .fault (Text.bytesOf "missing hexadecimal number in escape")

/-- Reads the number of a character behind its letter. -/
def readCharacter (letter : Char) (digits : Nat) (bytes : List UInt8) :
    TemplatePart × List UInt8 :=
  let (code, rest) := readDigits 16 hexDigit? digits 0 bytes
  if rest.length + digits = bytes.length then (characterPart letter digits code, rest)
  else (missingDigits, rest)

/-- Reads what follows a backslash.  In an argument, octal numbers can have a zero
in front. -/
def readEscape (inArgument : Bool) (bytes : List UInt8) : TemplatePart × List UInt8 :=
  match bytes with
  | [] => (.bytes [ascii '\\'], [])
  | next :: rest =>
      if next = ascii 'x' then
        let (value, later) := readDigits 16 hexDigit? 2 0 rest
        if later.length = rest.length then (missingDigits, later)
        else (.bytes [value.toUInt8], later)
      else if (octalDigit? next).isSome then
        let digits := if inArgument && next == ascii '0' then rest else bytes
        let (value, later) := readDigits 8 octalDigit? 3 0 digits
        (.bytes [value.toUInt8], later)
      else if next = ascii 'c' then (.stop, rest)
      else if next = ascii 'e' then (.bytes [27], rest)
      else if next = ascii '\\' ∨ next = ascii '"' then (.bytes [next], rest)
      else if next = ascii 'u' then readCharacter 'u' 4 rest
      else if next = ascii 'U' then readCharacter 'U' 8 rest
      else
        match controlEscape? next with
        | some value => (.bytes [value], rest)
        | none => (.bytes [ascii '\\', next], rest)

/-- Reads a width or a number of places. -/
def readAmount (bytes : List UInt8) : Option Amount × List UInt8 :=
  match bytes with
  | first :: rest =>
      if first = ascii '*' then
        (some .argument, rest)
      else
        let (value, later) := readDigits 10 decimalDigit? bytes.length 0 bytes
        if later.length = bytes.length then (none, bytes) else (some (.written value), later)
  | [] => (none, [])

/-- The bytes that can stand as flags of a conversion. -/
def flagBytes : List UInt8 :=
  "I'-+ #0".toList.map ascii

/-- The bytes that can stand in front of the letter of a conversion and say
nothing. -/
def sizeBytes : List UInt8 :=
  "lLhjtz".toList.map ascii

def readConversion (bytes : List UInt8) : Conversion × List UInt8 :=
  let flags := bytes.takeWhile flagBytes.contains
  let (width, afterWidth) := readAmount (bytes.dropWhile flagBytes.contains)
  let (precision, afterPrecision) := match afterWidth with
    | point :: rest =>
        if point = ascii '.' then
          let (amount, later) := readAmount rest
          (some (amount.getD (.written 0)), later)
        else
          (none, afterWidth)
    | [] => (none, [])
  let behind := afterPrecision.dropWhile sizeBytes.contains
  let rest := behind.drop 1
  let text := ascii '%' :: bytes.take (bytes.length - rest.length)
  ({ text, flags, width, precision, letter := behind.head? }, rest)

def readPercent (bytes : List UInt8) : TemplatePart × List UInt8 :=
  match bytes with
  | next :: rest =>
      if next = ascii '%' then (.bytes [next], rest)
      else if next = ascii 'b' then (.escapedArgument, rest)
      else if next = ascii 'q' then (.quotedArgument, rest)
      else
        let (conversion, behind) := readConversion bytes
        (.conversion conversion, behind)
  | [] =>
      let (conversion, behind) := readConversion []
      (.conversion conversion, behind)

/-- Reads the parts of a template, or of an argument with escapes.  Every part
takes up bytes, so the length of the template bounds their number. -/
def readTemplate (inArgument : Bool) : Nat → List UInt8 → List TemplatePart
  | 0, _ => []
  | _ + 1, [] => []
  | bound + 1, byte :: rest =>
      if byte = ascii '\\' then
        let (part, later) := readEscape inArgument rest
        part :: readTemplate inArgument bound later
      else if byte == ascii '%' && !inArgument then
        let (part, later) := readPercent rest
        part :: readTemplate inArgument bound later
      else
        .bytes [byte] :: readTemplate inArgument bound rest

/-- How far printing has come. -/
structure PrintState where
  arguments : List String
  output : List UInt8 := []
  complaints : List UInt8 := []
  failed : Bool := false

namespace PrintState

def print (state : PrintState) (bytes : List UInt8) : PrintState :=
  { state with output := state.output ++ bytes }

/-- Takes the next argument; an empty one stands for those that are missing. -/
def take (state : PrintState) : String × PrintState :=
  (state.arguments.headD "", { state with arguments := state.arguments.tail })

def complain (state : PrintState) (program : String) (text : List UInt8) : PrintState :=
  { state with complaints := state.complaints ++ complaint program text }

/-- Complains about an argument that is no number. -/
def reject (state : PrintState) (program argument reason : String) : PrintState :=
  { state.complain program
      (quoted (Text.bytesOf argument) ++ Text.bytesOf (": " ++ reason)) with failed := true }

def finish (state : PrintState) (succeeded : Bool) : FilterOutcome where
  succeeded := succeeded
  output := state.output
  complaint := state.complaints

/-- The outcome when printing ends here with a complaint. -/
def abort (state : PrintState) (program : String) (text : List UInt8) : FilterOutcome :=
  (state.complain program text).finish false

end PrintState

def outOfRange : String := "Numerical result out of range"

/-- The byte behind a quotation mark, whose number stands for it, and what
follows. -/
def quotedCharacter? (argument : String) : Option (UInt8 × List UInt8) :=
  match Text.bytesOf argument with
  | mark :: byte :: rest =>
      if mark = ascii '"' ∨ mark = ascii '\'' then some (byte, rest) else none
  | _ => none

/-- Reads a number from an argument: as the number of a byte behind a quotation
mark or with the given reader, which returns the number, whether it is in range and
what follows.  Without a number there is `zero`. -/
def readArgument {α : Type} (program argument : String) (state : PrintState) (zero : α)
    (ofByte : UInt8 → α) (read : List UInt8 → Option (α × Bool × List UInt8)) :
    α × PrintState :=
  match quotedCharacter? argument with
  | some (byte, rest) =>
      let warned :=
        if rest.isEmpty then state
        else
          state.complain program (Text.bytesOf "warning: " ++ rest ++ Text.bytesOf
            ": character(s) following character constant have been ignored")
      (ofByte byte, warned)
  | none =>
      match read (Text.bytesOf argument) with
      | none =>
          if argument.isEmpty then (zero, state)
          else (zero, state.reject program argument "expected a numeric value")
      | some (value, inRange, rest) =>
          if !inRange then (value, state.reject program argument outOfRange)
          else if !rest.isEmpty then
            (value, state.reject program argument "value not completely converted")
          else (value, state)

/-- Reads a whole number without a sign: in hexadecimal, binary or octal behind its
mark, or in decimal. -/
def readWhole (bytes : List UInt8) : Option (Nat × List UInt8) :=
  let binaryDigit? (byte : UInt8) : Option Nat :=
    if byte = ascii '0' then some 0 else if byte = ascii '1' then some 1 else none
  let digits (base : Nat) (digit? : UInt8 → Option Nat) (text : List UInt8) :
      Option (Nat × List UInt8) :=
    let (value, rest) := readDigits base digit? text.length 0 text
    if rest.length = text.length then none else some (value, rest)
  let marked (word : String) (base : Nat) (digit? : UInt8 → Option Nat) :
      Option (Nat × List UInt8) :=
    (dropWord word bytes).bind (digits base digit?)
  let plain : Option (Nat × List UInt8) :=
    if bytes.head? = some (ascii '0') then digits 8 octalDigit? bytes
    else digits 10 decimalDigit? bytes
  ((marked "0x" 16 hexDigit?).or (marked "0b" 2 binaryDigit?)).or plain

def readSigned (bytes : List UInt8) : Option (Bool × Nat × List UInt8) :=
  let (negative, digits) := match bytes with
    | sign :: rest =>
        if sign = ascii '-' then (true, rest)
        else if sign = ascii '+' then (false, rest)
        else (false, bytes)
    | [] => (false, [])
  (readWhole digits).map fun (value, rest) => (negative, value, rest)

def readInteger (bytes : List UInt8) : Option (Int × Bool × List UInt8) :=
  (readSigned bytes).map fun (negative, value, rest) =>
    let half := Text.wordBound / 2
    if negative then
      if half < value then (-(half : Int), false, rest) else (-(value : Int), true, rest)
    else
      if half ≤ value then ((half : Int) - 1, false, rest) else ((value : Int), true, rest)

/-- Reads a whole number; a negative one counts down from the bound. -/
def readWord (bytes : List UInt8) : Option (Nat × Bool × List UInt8) :=
  (readSigned bytes).map fun (negative, value, rest) =>
    if Text.wordBound ≤ value then (Text.wordBound - 1, false, rest)
    else if negative then ((Text.wordBound - value) % Text.wordBound, true, rest)
    else (value, true, rest)

def readFraction (bytes : List UInt8) : Option (ExtendedNumber × Bool × List UInt8) :=
  (readExtended bytes).map fun (number, rest) =>
    match number with
    | some number => (number, true, rest)
    | none => (.undefined false, false, rest)

/-- A conversion with its amounts at hand. -/
structure Layout where
  flags : List UInt8
  width : Nat
  left : Bool
  precision : Option Nat

namespace Layout

def has (layout : Layout) (flag : Char) : Bool :=
  layout.flags.contains (ascii flag)

/-- Fills a text up to the width: behind it, in front of it, or with zeros between
its head and its body. -/
def fill (layout : Layout) (zeros : Bool) (head body : List UInt8) : List UInt8 :=
  let missing := layout.width - (head.length + body.length)
  if layout.left then head ++ body ++ List.replicate missing (ascii ' ')
  else if zeros then head ++ List.replicate missing (ascii '0') ++ body
  else List.replicate missing (ascii ' ') ++ head ++ body

def sign (layout : Layout) (negative : Bool) : List UInt8 :=
  if negative then [ascii '-']
  else if layout.has '+' then [ascii '+']
  else if layout.has ' ' then [ascii ' ']
  else []

/-- The digits of a whole number; zero has none where no place is asked for. -/
def wholeDigits (layout : Layout) (digits : List UInt8) (isZero : Bool) : List UInt8 :=
  match layout.precision with
  | none => digits
  | some places =>
      if isZero && places == 0 then []
      else List.replicate (places - digits.length) (ascii '0') ++ digits

/-- Whole numbers are filled with zeros unless the number of places is given. -/
def fillWhole (layout : Layout) (head digits : List UInt8) : List UInt8 :=
  layout.fill (layout.has '0' && layout.precision.isNone) head digits

def integerText (layout : Layout) (value : Int) : List UInt8 :=
  layout.fillWhole (layout.sign (value < 0))
    (layout.wholeDigits (digitsOf value.natAbs) (value == 0))

/-- The digits of a natural number in a base. -/
def digitsIn (base value : Nat) : List UInt8 :=
  if base = 10 then digitsOf value
  else (Nat.toDigits base value).map ascii

def capitals (bytes : List UInt8) : List UInt8 :=
  bytes.map fun byte => if ascii 'a' ≤ byte && byte ≤ ascii 'z' then byte - 32 else byte

def wordText (layout : Layout) (letter : Char) (value : Nat) : List UInt8 :=
  let marked := layout.has '#'
  if letter = 'o' then
    let digits := layout.wholeDigits (digitsIn 8 value) (value == 0)
    let marks := marked && digits.head? != some (ascii '0')
    layout.fillWhole [] (if marks then ascii '0' :: digits else digits)
  else if letter = 'u' then
    layout.fillWhole [] (layout.wholeDigits (digitsIn 10 value) (value == 0))
  else
    let digits := layout.wholeDigits (digitsIn 16 value) (value == 0)
    let head := if marked && value != 0 then Text.bytesOf "0x" else []
    if letter = 'X' then layout.fillWhole (capitals head) (capitals digits)
    else layout.fillWhole head digits

def numberText (layout : Layout) (letter : Char) (number : ExtendedNumber) : List UInt8 :=
  let style : NumberLayout := { precision := layout.precision, keepsAll := layout.has '#' }
  let form := letter.toLower
  let body (magnitude : Magnitude) : List UInt8 :=
    if form = 'f' then magnitude.fixedText style
    else if form = 'e' then magnitude.scientificText style
    else if form = 'g' then magnitude.generalText style
    else magnitude.hexadecimalText style
  let cased (bytes : List UInt8) : List UInt8 :=
    if letter = form then bytes else capitals bytes
  match number with
  | .finite negative magnitude =>
      let head := layout.sign negative
      let text := body magnitude
      let marks := if form = 'a' then text.take 2 else []
      layout.fill (layout.has '0') (head ++ cased marks) (cased (text.drop marks.length))
  | .infinite negative => layout.fill false (layout.sign negative) (cased (Text.bytesOf "inf"))
  | .undefined negative => layout.fill false (layout.sign negative) (cased (Text.bytesOf "nan"))

end Layout

namespace Conversion

def lettersWith (flag : UInt8) : String :=
  if flag = ascii 'I' ∨ flag = ascii '\'' then "dfFgGiu"
  else if flag = ascii '#' then "aAeEfFgGoxX"
  else if flag = ascii '0' then "aAdeEfFgGiouxX"
  else "aAcdeEfFgGiosuxX"

/-- The letter of a conversion that can be printed. -/
def validLetter? (conversion : Conversion) : Option Char :=
  match conversion.letter with
  | none => none
  | some letter =>
      let allowed (letters : String) : Bool := (letters.toList.map ascii).contains letter
      let fits := allowed "aAcdeEfFgGiosuxX" &&
        conversion.flags.all (fun flag => allowed (lettersWith flag)) &&
        (conversion.precision.isNone || letter != ascii 'c')
      if fits then some (Char.ofNat letter.toNat) else none

/-- The greatest width and the greatest number of places. -/
def greatestAmount : Nat := 2147483647

/-- Takes the width: its size and whether the text stands on the left. -/
def takeWidth (conversion : Conversion) (program : String) (state : PrintState) :
    Except FilterOutcome (Nat × Bool × PrintState) :=
  match conversion.width with
  | none => .ok (0, false, state)
  | some (.written value) => .ok (value, false, state)
  | some .argument =>
      let (argument, state) := state.take
      let (value, state) :=
        readArgument program argument state (0 : Int) (fun byte => byte.toNat) readInteger
      if value < -(greatestAmount : Int) - 1 ∨ (greatestAmount : Int) < value then
        .error (state.abort program
          (Text.bytesOf "invalid field width: " ++ quoted (Text.bytesOf argument)))
      else
        .ok (value.natAbs, decide (value < 0), state)

/-- Takes the number of places; a negative one counts as none. -/
def takePrecision (conversion : Conversion) (program : String) (state : PrintState) :
    Except FilterOutcome (Option Nat × PrintState) :=
  match conversion.precision with
  | none => .ok (none, state)
  | some (.written value) => .ok (some value, state)
  | some .argument =>
      let (argument, state) := state.take
      let (value, state) :=
        readArgument program argument state (0 : Int) (fun byte => byte.toNat) readInteger
      if value < 0 then
        .ok (none, state)
      else if (greatestAmount : Int) < value then
        .error (state.abort program
          (Text.bytesOf "invalid precision: " ++ quoted (Text.bytesOf argument)))
      else
        .ok (some value.toNat, state)

def printArgument (program : String) (letter : Char) (layout : Layout)
    (state : PrintState) : PrintState :=
  let (argument, state) := state.take
  let bytes := Text.bytesOf argument
  if letter = 'c' then
    state.print (layout.fill false [] [bytes.headD 0])
  else if letter = 's' then
    let shown := match layout.precision with
      | some places => bytes.take places
      | none => bytes
    state.print (layout.fill false [] shown)
  else if letter = 'd' ∨ letter = 'i' then
    let (value, state) :=
      readArgument program argument state (0 : Int) (fun byte => byte.toNat) readInteger
    state.print (layout.integerText value)
  else if letter = 'o' ∨ letter = 'u' ∨ letter = 'x' ∨ letter = 'X' then
    let (value, state) := readArgument program argument state 0 UInt8.toNat readWord
    state.print (layout.wordText letter value)
  else
    let ofByte (byte : UInt8) : ExtendedNumber := .finite false ⟨byte.toNat, 0⟩
    let (number, state) :=
      readArgument program argument state (.finite false ⟨0, 0⟩) ofByte readFraction
    state.print (layout.numberText letter number)

def print (conversion : Conversion) (program : String) (state : PrintState) :
    Except FilterOutcome PrintState := do
  let (width, left, state) ← conversion.takeWidth program state
  let (precision, state) ← conversion.takePrecision program state
  match conversion.validLetter? with
  | none =>
      .error (state.abort program
        (conversion.text ++ Text.bytesOf ": invalid conversion specification"))
  | some letter =>
      if greatestAmount ≤ width || greatestAmount ≤ precision.getD 0 then
        .error (state.abort program (Text.bytesOf "write error"))
      else
        let layout : Layout :=
          { flags := conversion.flags
            width
            left := left || conversion.flags.contains (ascii '-')
            precision }
        return printArgument program letter layout state

end Conversion

/-- Prints a part of an argument with escapes. -/
def TemplatePart.printPlain (program : String) (state : PrintState) :
    TemplatePart → Except FilterOutcome PrintState
  | .bytes values => .ok (state.print values)
  | .stop => .error (state.finish true)
  | .fault text => .error (state.abort program text)
  | _ => .ok state

def TemplatePart.print (program : String) (state : PrintState) (part : TemplatePart) :
    Except FilterOutcome PrintState :=
  match part with
  | .conversion written => written.print program state
  | .escapedArgument =>
      let (argument, state) := state.take
      let bytes := Text.bytesOf argument
      (readTemplate true bytes.length bytes).foldlM (TemplatePart.printPlain program) state
  | .quotedArgument =>
      if state.arguments.isEmpty then
        .ok state
      else
        let (argument, state) := state.take
        .ok (state.print (shellQuoted false (Text.bytesOf argument)))
  | plain => plain.printPlain program state

/-- Uses a template as long as each round takes arguments and some are left.
Each further round takes an argument, so their number bounds the rounds. -/
def printRounds (program : String) (parts : List TemplatePart) :
    Nat → PrintState → Except FilterOutcome PrintState
  | 0, state => .ok state
  | bound + 1, state =>
      match parts.foldlM (TemplatePart.print program) state with
      | .error outcome => .error outcome
      | .ok next =>
          if !next.arguments.isEmpty && next.arguments.length < state.arguments.length then
            printRounds program parts bound next
          else
            .ok next

/-- The template filter; it does not look at its input. -/
def printTemplate (program : String) (arguments : List String) : FilterOutcome :=
  let operands := match arguments with
    | "--" :: rest => rest
    | _ => arguments
  match operands with
  | [] => .failed (complaintText program "missing operand" ++ manualHint program)
  | template :: values =>
      if arguments = ["--help"] ∨ arguments = ["--version"] then
        .printed []
      else
        let bytes := Text.bytesOf template
        let parts := readTemplate false bytes.length bytes
        match printRounds program parts (values.length + 1) { arguments := values } with
        | .ok state => state.finish (!state.failed)
        | .error outcome => outcome

end TextFilter

end GrammarReach
