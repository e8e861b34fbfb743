import GrammarReach.Text.Numeral

/-!
# Reading JSON values

The reader keeps what settings can use: of a number only its value as a natural
number, if it is written as one, and of a string only its text, if its escapes
form one.
-/

namespace GrammarReach

/-- A JSON value.  The members of an object stand in the order of the text, and
repeated keys are kept. -/
inductive JsonValue where
  | null
  | boolean (value : Bool)
  | number (natural : Option Nat)
  | string (content : Option String)
  | array (items : List JsonValue)
  | object (members : List (Option String × JsonValue))

namespace JsonValue

/-- A part of a string: a character, or the number of an escaped UTF-16 unit. -/
inductive TextPart where
  | character (value : Char)
  | unit (value : Nat)
deriving DecidableEq, Repr

namespace TextPart

/-- The character of a high and a low surrogate. -/
def pairCharacter (high low : Nat) : Char :=
  Char.ofNat (0x10000 + (high - 0xD800) * 0x400 + (low - 0xDC00))

/-- The unit is the first half of a pair. -/
def isHigh (unit : Nat) : Bool :=
  decide (0xD800 ≤ unit) && decide (unit < 0xDC00)

/-- The unit is the second half of a pair. -/
def isLow (unit : Nat) : Bool :=
  decide (0xDC00 ≤ unit) && decide (unit < 0xE000)

/-- The characters of the parts of a string; halves of pairs that stand alone
have none. -/
def characters : List TextPart → Option (List Char)
  | [] => some []
  | .character value :: rest => (characters rest).map (value :: ·)
  | .unit high :: .unit low :: rest =>
      if isHigh high then
        if isLow low then (characters rest).map (pairCharacter high low :: ·) else none
      else if isLow high then
        none
      else
        (characters (.unit low :: rest)).map (Char.ofNat high :: ·)
  | .unit value :: rest =>
      if isHigh value || isLow value then none
      else (characters rest).map (Char.ofNat value :: ·)

end TextPart

/-- The characters that may stand between the parts of a value. -/
def isSpace (character : Char) : Bool :=
  character == ' ' || character == '\n' || character == '\t' || character == '\r'

def skipSpaces (text : List Char) : List Char :=
  text.dropWhile isSpace

def hexDigit? (digit : Char) : Option Nat :=
  if digit.isDigit then some (digit.toNat - '0'.toNat)
  else if 'a' ≤ digit && digit ≤ 'f' then some (digit.toNat - 'a'.toNat + 10)
  else if 'A' ≤ digit && digit ≤ 'F' then some (digit.toNat - 'A'.toNat + 10)
  else none

def hexUnit? (first second third fourth : Char) : Option Nat := do
  return (← hexDigit? first) * 0x1000 + (← hexDigit? second) * 0x100 +
    (← hexDigit? third) * 0x10 + (← hexDigit? fourth)

/-- The character that an escape of one letter stands for. -/
def escaped? : Char → Option Char
  | '"' => some '"'
  | '\\' => some '\\'
  | '/' => some '/'
  | 'b' => some (Char.ofNat 8)
  | 'f' => some (Char.ofNat 12)
  | 'n' => some '\n'
  | 'r' => some '\r'
  | 't' => some '\t'
  | _ => none

/-- Reads the parts of a string up to its closing quote and returns them in
reverse. -/
def readParts (parts : List TextPart) : List Char → Option (List TextPart × List Char)
  | '"' :: rest => some (parts, rest)
  | '\\' :: 'u' :: first :: second :: third :: fourth :: rest =>
      match hexUnit? first second third fourth with
      | some unit => readParts (.unit unit :: parts) rest
      | none => none
  | '\\' :: letter :: rest =>
      match escaped? letter with
      | some character => readParts (.character character :: parts) rest
      | none => none
  | character :: rest =>
      if character.toNat < 0x20 then none
      else readParts (.character character :: parts) rest
  | [] => none

def readText (text : List Char) : Option (Option String × List Char) :=
  (readParts [] text).map fun (parts, rest) =>
    ((TextPart.characters parts.reverse).map String.ofList, rest)

def readDigits (text : List Char) : Option (List Char × List Char) :=
  let digits := text.takeWhile Char.isDigit
  if digits.isEmpty then none else some (digits, text.dropWhile Char.isDigit)

/-- Reads the digits before the point; only zero itself starts with a zero. -/
def readWhole (text : List Char) : Option (List Char × List Char) :=
  match readDigits text with
  | some ('0' :: _ :: _, _) => none
  | found => found

/-- Drops an exponent and says whether there was one. -/
def dropExponent (text : List Char) : Option (Bool × List Char) :=
  let behindSign : List Char → List Char
    | '+' :: rest => rest
    | '-' :: rest => rest
    | rest => rest
  match text with
  | 'e' :: rest => (readDigits (behindSign rest)).map fun (_, rest) => (true, rest)
  | 'E' :: rest => (readDigits (behindSign rest)).map fun (_, rest) => (true, rest)
  | rest => some (false, rest)

/-- Drops a fraction and an exponent and says whether there was one of them. -/
def dropFraction (text : List Char) : Option (Bool × List Char) :=
  match text with
  | '.' :: rest => do
      let (_, rest) ← readDigits rest
      let (_, rest) ← dropExponent rest
      return (true, rest)
  | rest => dropExponent rest

/-- Reads a number.  A number with a sign, a point or an exponent is not written
as a natural number. -/
def readNumber (text : List Char) : Option (JsonValue × List Char) := do
  let (negative, text) := match text with
    | '-' :: rest => (true, rest)
    | rest => (false, rest)
  let (digits, rest) ← readWhole text
  let (extended, rest) ← dropFraction rest
  let natural := if negative || extended then none else some (Text.digitsValue digits)
  return (.number natural, rest)

/-- Reads a key and the colon behind it. -/
def readKey (text : List Char) : Option (Option String × List Char) :=
  match skipSpaces text with
  | '"' :: rest => do
      let (key, rest) ← readText rest
      match skipSpaces rest with
      | ':' :: rest => some (key, rest)
      | _ => none
  | _ => none

mutual

/-- Reads a value.  Nested readers run at most `bound` deep. -/
def readValue : Nat → List Char → Option (JsonValue × List Char)
  | 0, _ => none
  | bound + 1, text =>
      match skipSpaces text with
      | 'n' :: 'u' :: 'l' :: 'l' :: rest => some (.null, rest)
      | 't' :: 'r' :: 'u' :: 'e' :: rest => some (.boolean true, rest)
      | 'f' :: 'a' :: 'l' :: 's' :: 'e' :: rest => some (.boolean false, rest)
      | '"' :: rest => (readText rest).map fun (content, rest) => (.string content, rest)
      | '[' :: rest =>
          match skipSpaces rest with
          | ']' :: rest => some (.array [], rest)
          | rest => (readItems bound rest).map fun (items, rest) => (.array items, rest)
      | '\x7b' :: rest =>
          match skipSpaces rest with
          | '\x7d' :: rest => some (.object [], rest)
          | rest =>
              (readMembers bound rest).map fun (members, rest) => (.object members, rest)
      | rest => readNumber rest

/-- Reads the items of an array up to its closing bracket. -/
def readItems : Nat → List Char → Option (List JsonValue × List Char)
  | 0, _ => none
  | bound + 1, text =>
      match readValue bound text with
      | none => none
      | some (item, rest) =>
          match skipSpaces rest with
          | ']' :: rest => some ([item], rest)
          | ',' :: rest => (readItems bound rest).map fun (items, rest) => (item :: items, rest)
          | _ => none

/-- Reads the members of an object up to its closing brace. -/
def readMembers : Nat → List Char → Option (List (Option String × JsonValue) × List Char)
  | 0, _ => none
  | bound + 1, text =>
      match readKey text with
      | none => none
      | some (key, rest) =>
          match readValue bound rest with
          | none => none
          | some (value, rest) =>
              match skipSpaces rest with
              | '\x7d' :: rest => some ([(key, value)], rest)
              | ',' :: rest =>
                  (readMembers bound rest).map fun (members, rest) =>
                    ((key, value) :: members, rest)
              | _ => none

end

def read (text : String) : Option JsonValue :=
  let characters := text.toList
  match readValue (2 * characters.length + 2) characters with
  | some (value, rest) => if (skipSpaces rest).isEmpty then some value else none
  | none => none

end JsonValue

end GrammarReach
