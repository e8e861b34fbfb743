import GrammarReach.TextFilter.Basic

/-!
# Quoting in complaints

Complaints quote what they are about: arguments between single quotes with
backslash escapes, and file names in the way in which a shell would read them
back, without quotes where none are needed.
-/

namespace GrammarReach

namespace TextFilter

def quotedByte (byte : UInt8) : List UInt8 :=
  match controlLetter? byte with
  | some letter => [ascii '\\', letter]
  | none =>
      if byte = ascii '\\' ∨ byte = ascii '\'' then [ascii '\\', byte]
      else if isPrintable byte then [byte]
      else ascii '\\' :: octalDigits byte

def quoted (bytes : List UInt8) : List UInt8 :=
  ascii '\'' :: bytes.flatMap quotedByte ++ [ascii '\'']

/-- How a byte of a file name can be read by a shell. -/
inductive ShellRole where
  | harmless
  /-- It stands for itself inside single quotes only. -/
  | special
  | control (escape : List UInt8)
deriving DecidableEq, Repr

/-- The bytes that have a meaning for a shell wherever they stand. -/
def isSpecialForShell (byte : UInt8) : Bool :=
  ("!\"$&()*;<=>[^`|?\\".toList.map ascii).contains byte

/-- The byte has a meaning for a shell at its place, which is the first one or
even the only one. -/
def isSpecialAt (first only : Bool) (byte : UInt8) : Bool :=
  if byte = ascii '\x7b' ∨ byte = ascii '\x7d' then only
  else if byte = ascii '#' ∨ byte = ascii '~' then first
  else byte = ascii ' ' || byte = ascii '\'' || isSpecialForShell byte

/-- The role of a byte at its place. -/
def shellRole (first only : Bool) (byte : UInt8) : ShellRole :=
  match controlLetter? byte with
  | some letter => .control [letter]
  | none =>
      if !isPrintable byte then .control (octalDigits byte)
      else if isSpecialForShell byte then .special
      else if byte = ascii '\x7b' ∨ byte = ascii '\x7d' then
        if only then .harmless else .special
      else if byte = ascii '#' ∨ byte = ascii '~' then
        if first then .harmless else .special
      else .harmless

/-- The bytes of a text with what is known of their places: whether a byte is the
first one, and whether it is the only one. -/
def withPlaces (bytes : List UInt8) : List (UInt8 × Bool × Bool) :=
  bytes.zipIdx.map fun (byte, place) => (byte, place == 0, bytes.length == 1)

/-- The text has to be quoted.  Names of files are also quoted for a colon, which
separates the parts of a complaint. -/
def needsQuotes (quoteColon : Bool) (bytes : List UInt8) : Bool :=
  bytes.isEmpty || (withPlaces bytes).any fun (byte, first, only) =>
    (quoteColon && byte == ascii ':') || isSpecialAt first only byte ||
      (controlLetter? byte).isSome || !isPrintable byte

/-- Writes the bytes between single quotes.  Escapes stand in quotes of their own;
`escaping` says that such quotes are open.  Returns also whether they are still
open at the end. -/
def shellBytes (escaping : Bool) : List (UInt8 × Bool × Bool) → List UInt8 × Bool
  | [] => ([], escaping)
  | (byte, first, only) :: rest =>
      let close := if escaping then [ascii '\'', ascii '\''] else []
      if byte = ascii '\'' then
        let (later, stillOpen) := shellBytes false rest
        ([ascii '\'', ascii '\\', ascii '\''] ++ byte :: later, stillOpen)
      else
        match shellRole first only byte with
        | .control escape =>
            let opening := if escaping then [] else [ascii '\'', ascii '$', ascii '\'']
            let (later, stillOpen) := shellBytes true rest
            (opening ++ ascii '\\' :: escape ++ later, stillOpen)
        | _ =>
            let (later, stillOpen) := shellBytes false rest
            (close ++ byte :: later, stillOpen)

/-- A text as a shell would read it back.  A text with single quotes goes between
double quotes if nothing in it is special there. -/
def shellQuoted (quoteColon : Bool) (bytes : List UInt8) : List UInt8 :=
  if !needsQuotes quoteColon bytes then
    bytes
  else
    let places := withPlaces bytes
    let hasQuote := bytes.contains (ascii '\'')
    let isHarmless := places.all fun (byte, first, only) =>
      shellRole first only byte == .harmless
    if hasQuote && isHarmless then
      ascii '"' :: bytes ++ [ascii '"']
    else
      let (_, stillOpen) := shellBytes false places
      let (body, _) := shellBytes (hasQuote && stillOpen) places
      ascii '\'' :: body ++ [ascii '\'']

/-- The name of a file in a complaint. -/
def quotedFileName (name : String) : List UInt8 :=
  shellQuoted true (Text.bytesOf name)

end TextFilter

end GrammarReach
