import GrammarReach.Text.Utf8

/-!
# Text filters

A text filter reads bytes and prints bytes, or fails with a complaint.  Operands
are written with the escapes that a filter's manual lists; the pieces that all
filters share are read here.  Characters are single bytes, and only those of
ASCII can be printed.
-/

namespace GrammarReach

/-- What a filter leaves behind. -/
structure FilterOutcome where
  succeeded : Bool
  output : List UInt8 := []
  complaint : List UInt8 := []
  /-- The filter has read all of its input. -/
  readsInput : Bool := false
deriving DecidableEq, Repr

namespace FilterOutcome

def printed (output : List UInt8) : FilterOutcome :=
  { succeeded := true, output }

def failed (complaint : List UInt8) : FilterOutcome :=
  { succeeded := false, complaint }

end FilterOutcome

namespace TextFilter

def ascii (character : Char) : UInt8 :=
  character.toNat.toUInt8

def complaint (program : String) (text : List UInt8) : List UInt8 :=
  Text.bytesOf (program ++ ": ") ++ text ++ [ascii '\n']

def complaintText (program text : String) : List UInt8 :=
  complaint program (Text.bytesOf text)

/-- The hint that closes the complaint about arguments that cannot be used. -/
def manualHint (program : String) : List UInt8 :=
  Text.bytesOf ("Try '" ++ program ++ " --help' for more information.\n")

def isDigit (byte : UInt8) : Bool :=
  ascii '0' ≤ byte && byte ≤ ascii '9'

/-- The byte can be printed as it is. -/
def isPrintable (byte : UInt8) : Bool :=
  32 ≤ byte && byte < 127

def octalDigit? (byte : UInt8) : Option Nat :=
  if ascii '0' ≤ byte && byte ≤ ascii '7' then some (byte - ascii '0').toNat else none

def hexDigit? (byte : UInt8) : Option Nat :=
  if isDigit byte then some (byte - ascii '0').toNat
  else if ascii 'a' ≤ byte && byte ≤ ascii 'f' then some ((byte - ascii 'a').toNat + 10)
  else if ascii 'A' ≤ byte && byte ≤ ascii 'F' then some ((byte - ascii 'A').toNat + 10)
  else none

/-- Reads up to `count` digits in a base, continuing from `value`, and returns the
value with the bytes behind the digits. -/
def readDigits (base : Nat) (digit? : UInt8 → Option Nat) :
    Nat → Nat → List UInt8 → Nat × List UInt8
  | 0, value, bytes => (value, bytes)
  | _ + 1, value, [] => (value, [])
  | count + 1, value, byte :: rest =>
      match digit? byte with
      | some digit => readDigits base digit? count (value * base + digit) rest
      | none => (value, byte :: rest)

/-- The control byte that a letter behind a backslash stands for. -/
def controlEscape? (byte : UInt8) : Option UInt8 :=
  if byte = ascii 'a' then some 7
  else if byte = ascii 'b' then some 8
  else if byte = ascii 't' then some 9
  else if byte = ascii 'n' then some 10
  else if byte = ascii 'v' then some 11
  else if byte = ascii 'f' then some 12
  else if byte = ascii 'r' then some 13
  else none

/-- The letter behind a backslash that stands for a control byte. -/
def controlLetter? (byte : UInt8) : Option UInt8 :=
  if byte = 7 then some (ascii 'a')
  else if byte = 8 then some (ascii 'b')
  else if byte = 9 then some (ascii 't')
  else if byte = 10 then some (ascii 'n')
  else if byte = 11 then some (ascii 'v')
  else if byte = 12 then some (ascii 'f')
  else if byte = 13 then some (ascii 'r')
  else none

def octalDigits (byte : UInt8) : List UInt8 :=
  [ascii '0' + byte / 64, ascii '0' + byte / 8 % 8, ascii '0' + byte % 8]

end TextFilter

end GrammarReach
