/-!
# Cutting text into pieces

Readers work on lists of characters.  A text is cut at separators, into lines,
or into its non-empty fields; blanks are the characters with the Unicode
property `White_Space`.
-/

namespace GrammarReach

namespace Text

def isBlank (character : Char) : Bool :=
  let code := character.toNat
  (9 ≤ code && code ≤ 13) || code == 0x20 || code == 0x85 || code == 0xA0 ||
    code == 0x1680 || (0x2000 ≤ code && code ≤ 0x200A) || code == 0x2028 ||
    code == 0x2029 || code == 0x202F || code == 0x205F || code == 0x3000

/-- The text without the blanks at its two ends. -/
def trim (text : List Char) : List Char :=
  ((text.dropWhile isBlank).reverse.dropWhile isBlank).reverse

/-- Puts one character in front of the first piece. -/
def extendFirst (character : Char) : List (List Char) → List (List Char)
  | [] => [[character]]
  | first :: others => (character :: first) :: others

/-- Cuts a text at every separator.  The pieces are one more than the
separators, so a text without separators is its only piece. -/
def pieces (isSeparator : Char → Bool) (text : List Char) : List (List Char) :=
  text.foldr
    (fun character later =>
      if isSeparator character then [] :: later else extendFirst character later)
    [[]]

/-- The maximal runs of characters that are not separators. -/
def fields (isSeparator : Char → Bool) (text : List Char) : List (List Char) :=
  (pieces isSeparator text).filter fun piece => !piece.isEmpty

/-- The maximal runs of characters that are not blanks. -/
def words (text : List Char) : List (List Char) :=
  fields isBlank text

/-- Removes one carriage return from the end of a line. -/
def dropCarriageReturn (line : List Char) : List Char :=
  if line.getLast? = some '\r' then line.dropLast else line

/-- Turns the pieces between line feeds into lines: a carriage return before
a line feed belongs to the line end, and an empty last piece is no line. -/
def closeLines : List (List Char) → List (List Char)
  | [] => []
  | [last] => if last.isEmpty then [] else [last]
  | line :: others => dropCarriageReturn line :: closeLines others

/-- The lines of a text, without their line ends. -/
def lines (text : List Char) : List (List Char) :=
  closeLines (pieces (· == '\n') text)

/-- Cuts a text at the first occurrence of a character, if there is one. -/
def cutAt (mark : Char) : List Char → Option (List Char × List Char)
  | [] => none
  | character :: rest =>
      if character = mark then
        some ([], rest)
      else
        (cutAt mark rest).map fun (before, after) => (character :: before, after)

/-- The rest of a text after the given beginning. -/
def afterBeginning : List Char → List Char → Option (List Char)
  | [], text => some text
  | _ :: _, [] => none
  | expected :: others, character :: rest =>
      if expected = character then afterBeginning others rest else none

end Text

end GrammarReach
