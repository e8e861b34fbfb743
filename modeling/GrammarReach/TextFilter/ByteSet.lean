import GrammarReach.TextFilter.Quoting

/-!
# Written sets of bytes

A set of bytes is written as single bytes, escapes, ranges such as `a-z`, classes
such as `[:digit:]`, bytes between equality signs and repeated bytes such as
`[a*5]`.  The order of the members counts, and so do their repeats.
-/

namespace GrammarReach

namespace TextFilter

/-- The classes of bytes that have a name. -/
inductive ByteClass where
  | alnum | alpha | blank | cntrl | digit | graph | lower | print | punct | space | upper
  | xdigit
deriving DecidableEq, Repr

namespace ByteClass

def named : List (String × ByteClass) :=
  [("alnum", alnum), ("alpha", alpha), ("blank", blank), ("cntrl", cntrl), ("digit", digit),
    ("graph", graph), ("lower", lower), ("print", print), ("punct", punct), ("space", space),
    ("upper", upper), ("xdigit", xdigit)]

def holds (kind : ByteClass) (character : Char) : Bool :=
  let isGraphic : Bool := '!' ≤ character && character ≤ '~'
  match kind with
  | alnum => character.isAlphanum
  | alpha => character.isAlpha
  | blank => character == ' ' || character == '\t'
  | cntrl => decide (character.toNat < 32) || character.toNat == 127
  | digit => character.isDigit
  | graph => isGraphic
  | lower => character.isLower
  | print => isGraphic || character == ' '
  | punct => isGraphic && !character.isAlphanum
  | space => character == ' ' || (9 ≤ character.toNat && character.toNat ≤ 13)
  | upper => character.isUpper
  | xdigit =>
      character.isDigit || ('a' ≤ character && character ≤ 'f') ||
        ('A' ≤ character && character ≤ 'F')

end ByteClass

def allBytes : List UInt8 :=
  (List.range 256).map Nat.toUInt8

/-- The bytes of a class in ascending order. -/
def ByteClass.members (kind : ByteClass) : List UInt8 :=
  allBytes.filter fun byte => byte < 128 && kind.holds (Char.ofNat byte.toNat)

def byteRange (first last : UInt8) : List UInt8 :=
  allBytes.filter fun byte => first ≤ byte && byte ≤ last

/-- A part of a written set. -/
inductive SetPart where
  | byte (value : UInt8)
  | range (first last : UInt8)
  | class (kind : ByteClass)
  | equal (value : UInt8)
  /-- A byte as often as the count says; a count of zero leaves it open. -/
  | repeated (value : UInt8) (count : Nat)
deriving DecidableEq, Repr

namespace SetPart

/-- The number of members that a part is known to have. -/
def count : SetPart → Nat
  | .byte _ => 1
  | .range first last => (byteRange first last).length
  | .class kind => kind.members.length
  | .equal _ => 1
  | .repeated _ count => count

def members : SetPart → List UInt8
  | .byte value => [value]
  | .range first last => byteRange first last
  | .class kind => kind.members
  | .equal value => [value]
  | .repeated value count => if count = 0 then [] else [value]

/-- The part leaves open how often its byte is repeated. -/
def isOpen : SetPart → Bool
  | .repeated _ 0 => true
  | _ => false

def isClass : SetPart → Bool
  | .class _ => true
  | _ => false

end SetPart

/-- A byte of a written set; an escaped one has no meaning besides itself. -/
structure WrittenByte where
  value : UInt8
  escaped : Bool
deriving DecidableEq, Repr

namespace WrittenByte

/-- The byte is the given character and not escaped. -/
def isPlain (byte : WrittenByte) (character : Char) : Bool :=
  byte.value == ascii character && !byte.escaped

end WrittenByte

/-- The warning about an octal escape of three digits that fits into no byte. -/
def octalWarning (first second third : UInt8) : List UInt8 :=
  Text.bytesOf "warning: the ambiguous octal escape \\" ++ [first, second, third] ++
    Text.bytesOf " is being\n\tinterpreted as the 2-byte sequence \\0" ++ [first, second] ++
    Text.bytesOf ", " ++ [third]

/-- The warning about a backslash at the end. -/
def backslashWarning : List UInt8 :=
  Text.bytesOf "warning: an unescaped backslash at end of string is not portable"

/-- Reads the octal escape whose first digit is given, together with the warning
about it. -/
def readOctalEscape (digit : Nat) (first : UInt8) (rest : List UInt8) :
    UInt8 × List (List UInt8) × List UInt8 :=
  match rest with
  | second :: later =>
      match octalDigit? second with
      | none => (digit.toUInt8, [], rest)
      | some next =>
          let value := digit * 8 + next
          match later with
          | third :: behind =>
              match octalDigit? third with
              | none => (value.toUInt8, [], later)
              | some last =>
                  if value * 8 + last < 256 then ((value * 8 + last).toUInt8, [], behind)
                  else (value.toUInt8, [octalWarning first second third], later)
          | [] => (value.toUInt8, [], later)
  | [] => (digit.toUInt8, [], rest)

/-- Replaces escapes by what they stand for.  Returns the bytes and the warnings.
Every escape takes up bytes, so the length of the text bounds their number. -/
def readEscapes : Nat → List UInt8 → List WrittenByte × List (List UInt8)
  | 0, _ => ([], [])
  | _ + 1, [] => ([], [])
  | bound + 1, byte :: rest =>
      if byte ≠ ascii '\\' then
        let (later, warnings) := readEscapes bound rest
        (⟨byte, false⟩ :: later, warnings)
      else
        match rest with
        | [] => ([⟨byte, false⟩], [backslashWarning])
        | next :: behind =>
            match octalDigit? next with
            | some digit =>
                let (value, own, behind) := readOctalEscape digit next behind
                let (later, warnings) := readEscapes bound behind
                (⟨value, true⟩ :: later, own ++ warnings)
            | none =>
                let value := (controlEscape? next).getD next
                let (later, warnings) := readEscapes bound behind
                (⟨value, true⟩ :: later, warnings)

/-- A byte as it is shown in complaints about sets. -/
def shownByte (byte : UInt8) : List UInt8 :=
  if isPrintable byte then [byte] else ascii '\\' :: octalDigits byte

/-- Bytes as they are shown in complaints about sets. -/
def shownBytes (bytes : List UInt8) : List UInt8 :=
  bytes.flatMap fun byte =>
    match controlLetter? byte with
    | some letter => [ascii '\\', letter]
    | none => shownByte byte

/-- Why a written set cannot be read. -/
inductive SetFault where
  | noClassName
  | noEqualByte
  | unknownClass (name : List UInt8)
  | severalEqualBytes (bytes : List UInt8)
  | badCount (text : List UInt8)
  | reversedRange (first last : UInt8)
deriving DecidableEq, Repr

def SetFault.text : SetFault → List UInt8
  | .noClassName => Text.bytesOf "missing character class name '[::]'"
  | .noEqualByte => Text.bytesOf "missing equivalence class character '[==]'"
  | .unknownClass name =>
      Text.bytesOf "invalid character class " ++ quoted (shownBytes name)
  | .severalEqualBytes bytes =>
      shownBytes bytes ++
        Text.bytesOf ": equivalence class operand must be a single character"
  | .badCount text =>
      Text.bytesOf "invalid repeat count " ++ quoted (shownBytes text) ++
        Text.bytesOf " in [c*n] construct"
  | .reversedRange first last =>
      Text.bytesOf "range-endpoints of '" ++ shownByte first ++ [ascii '-'] ++
        shownByte last ++ Text.bytesOf "' are in reverse collating sequence order"

def greatestCount : Nat := 18446744073709551614

/-- Reads a count, in octal when it starts with a zero. -/
def readCount (text : List UInt8) : Option Nat :=
  let digits := match text with
    | first :: rest => if first = ascii '+' then rest else text
    | [] => text
  let base := if text.head? = some (ascii '0') then 8 else 10
  let digit? (byte : UInt8) : Option Nat :=
    if isDigit byte && (byte - ascii '0').toNat < base then
      some (byte - ascii '0').toNat
    else
      none
  let (value, rest) := readDigits base digit? digits.length 0 digits
  if digits.isEmpty || !rest.isEmpty || greatestCount < value then none else some value

/-- The bytes up to a delimiter and a closing bracket, and what stands behind
them. -/
def untilClosing (delimiter : Char) :
    List WrittenByte → Option (List UInt8 × List WrittenByte)
  | first :: second :: rest =>
      if first.isPlain delimiter && second.isPlain ']' then
        some ([], rest)
      else
        (untilClosing delimiter (second :: rest)).map fun (inside, behind) =>
          (first.value :: inside, behind)
  | _ => none

/-- The bytes up to a closing bracket, and what stands behind it. -/
def untilBracket : List WrittenByte → Option (List UInt8 × List WrittenByte)
  | [] => none
  | byte :: rest =>
      if byte.escaped then none
      else if byte.isPlain ']' then some ([], rest)
      else
        (untilBracket rest).map fun (inside, behind) => (byte.value :: inside, behind)

/-- The bytes start with a star, digits and a closing bracket. -/
def looksRepeated : List WrittenByte → Bool
  | [] => false
  | star :: rest =>
      star.isPlain '*' &&
        match rest.dropWhile fun byte => isDigit byte.value && !byte.escaped with
        | close :: _ => close.isPlain ']'
        | [] => false

/-- Reads a repeated byte behind its opening bracket, if one stands there. -/
def readRepeated (bytes : List WrittenByte) :
    Except SetFault (Option (SetPart × List WrittenByte)) :=
  match bytes with
  | byte :: star :: rest =>
      if star.isPlain '*' then
        match untilBracket rest with
        | none => .ok none
        | some ([], behind) => .ok (some (.repeated byte.value 0, behind))
        | some (text, behind) =>
            match readCount text with
            | some count => .ok (some (.repeated byte.value count, behind))
            | none => .error (.badCount text)
      else
        .ok none
  | _ => .ok none

/-- The class or the equal byte that stands between delimiters. -/
def delimitedPart (delimiter : Char) (inside : List UInt8) : Except SetFault SetPart :=
  if delimiter = ':' then
    if inside.isEmpty then
      .error .noClassName
    else
      match ByteClass.named.find? fun (name, _) => Text.bytesOf name == inside with
      | some (_, kind) => .ok (.class kind)
      | none => .error (.unknownClass inside)
  else
    match inside with
    | [] => .error .noEqualByte
    | [value] => .ok (.equal value)
    | _ => .error (.severalEqualBytes inside)

/-- The fault is about what stands between delimiters, so that it could still be
meant as a repeated byte. -/
def SetFault.mayBeRepeated : SetFault → Bool
  | .unknownClass _ => true
  | .severalEqualBytes _ => true
  | _ => false

/-- Reads a class, an equal byte or a repeated byte behind its opening bracket, if
one stands there. -/
def readBracketed (bytes : List WrittenByte) :
    Except SetFault (Option (SetPart × List WrittenByte)) :=
  let delimited : Option (Except SetFault SetPart × List WrittenByte × List WrittenByte) :=
    match bytes with
    | first :: rest =>
        let delimiter? : Option Char :=
          if first.isPlain ':' then some ':'
          else if first.isPlain '=' then some '='
          else none
        match delimiter? with
        | some delimiter =>
            (untilClosing delimiter rest).map fun (inside, behind) =>
              (delimitedPart delimiter inside, rest, behind)
        | none => none
    | [] => none
  match delimited with
  | some (.ok part, _, behind) => .ok (some (part, behind))
  | some (.error fault, rest, _) =>
      if fault.mayBeRepeated && looksRepeated rest then readRepeated bytes else .error fault
  | none => readRepeated bytes

/-- Reads one byte or one range from the front. -/
def readSimple : List WrittenByte → Except SetFault (Option (SetPart × List WrittenByte))
  | first :: dash :: last :: rest =>
      if dash.isPlain '-' then
        if last.value < first.value then .error (.reversedRange first.value last.value)
        else .ok (some (.range first.value last.value, rest))
      else
        .ok (some (.byte first.value, dash :: last :: rest))
  | first :: rest => .ok (some (.byte first.value, rest))
  | [] => .ok none

/-- Reads one part from the front.  What is shorter than three bytes holds single
bytes only. -/
def readPart (bytes : List WrittenByte) :
    Except SetFault (Option (SetPart × List WrittenByte)) :=
  match bytes with
  | first :: second :: third :: rest =>
      if first.isPlain '[' then
        match readBracketed (second :: third :: rest) with
        | .ok none => readSimple bytes
        | found => found
      else
        readSimple bytes
  | _ => readSimple bytes

/-- Reads the parts of a set.  Every part takes up bytes, so the length of the set
bounds their number. -/
def readParts : Nat → List WrittenByte → Except SetFault (List SetPart)
  | 0, _ => .ok []
  | bound + 1, bytes =>
      match readPart bytes with
      | .error fault => .error fault
      | .ok none => .ok []
      | .ok (some (part, rest)) => (readParts bound rest).map (part :: ·)

/-- Reads a written set.  Returns the warnings, too. -/
def readSet (text : String) : Except SetFault (List SetPart) × List (List UInt8) :=
  let bytes := Text.bytesOf text
  let (written, warnings) := readEscapes bytes.length bytes
  (readParts written.length written, warnings)

end TextFilter

end GrammarReach
