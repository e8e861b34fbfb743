import GrammarReach.Text.Numeral

/-!
# UTF-8

Every text is written as bytes.  Bytes become text when they are well-formed
UTF-8; otherwise the reader says where the first fault lies and how many bytes of
the broken character were good.
-/

namespace GrammarReach

namespace Text

def bytesOf (text : String) : List UInt8 :=
  text.toList.flatMap String.utf8EncodeChar

/-- The first fault of a byte sequence that is not UTF-8. -/
inductive Utf8Fault where
  /-- The bytes end inside the character that starts at the index. -/
  | incomplete (index : Nat)
  /-- The bytes at the index start no character. -/
  | invalid (index length : Nat)
deriving DecidableEq, Repr

def Utf8Fault.message : Utf8Fault → String
  | .incomplete index => "incomplete utf-8 byte sequence from index " ++ decimal index
  | .invalid index length =>
      "invalid utf-8 sequence of " ++ decimal length ++ " bytes from index " ++
        decimal index

/-- The ranges that the bytes after a first byte have to lie in, or `none` when
no character starts with it. -/
def continuationRanges (first : Nat) : Option (List (Nat × Nat)) :=
  let tail := (0x80, 0xBF)
  if first ≤ 0x7F then some []
  else if 0xC2 ≤ first ∧ first ≤ 0xDF then some [tail]
  else if first = 0xE0 then some [(0xA0, 0xBF), tail]
  else if first = 0xED then some [(0x80, 0x9F), tail]
  else if 0xE1 ≤ first ∧ first ≤ 0xEF then some [tail, tail]
  else if first = 0xF0 then some [(0x90, 0xBF), tail, tail]
  else if 0xF1 ≤ first ∧ first ≤ 0xF3 then some [tail, tail, tail]
  else if first = 0xF4 then some [(0x80, 0x8F), tail, tail]
  else none

/-- Looks for the first fault.  The current character starts at `start`, has
given `taken` bytes and still expects bytes in the given ranges. -/
def faultFrom (start taken : Nat) : List (Nat × Nat) → List UInt8 → Option Utf8Fault
  | [], [] => none
  | _ :: _, [] => some (.incomplete start)
  | [], byte :: rest =>
      match continuationRanges byte.toNat with
      | none => some (.invalid start 1)
      | some [] => faultFrom (start + 1) 0 [] rest
      | some expected => faultFrom start 1 expected rest
  | (low, high) :: later, byte :: rest =>
      if low ≤ byte.toNat ∧ byte.toNat ≤ high then
        match later with
        | [] => faultFrom (start + taken + 1) 0 [] rest
        | _ => faultFrom start (taken + 1) later rest
      else
        some (.invalid start taken)

/-- The first fault of some bytes, if they are not UTF-8. -/
def firstFault? (bytes : List UInt8) : Option Utf8Fault :=
  faultFrom 0 0 [] bytes

/-- The character that stands for bytes that are none. -/
def replacement : String := "\uFFFD"

/-- The text of bytes that have no fault. -/
def textOf (bytes : List UInt8) : String :=
  (String.fromUTF8? ⟨bytes.toArray⟩).getD ""

/-- Reads bytes as text with a replacement for each fault.  Every fault takes up
bytes, so their number bounds the faults. -/
def readableFrom : Nat → List UInt8 → String
  | 0, _ => ""
  | bound + 1, bytes =>
      match firstFault? bytes with
      | none => textOf bytes
      | some (.incomplete index) => textOf (bytes.take index) ++ replacement
      | some (.invalid index length) =>
          textOf (bytes.take index) ++ replacement ++
            readableFrom bound (bytes.drop (index + length))

/-- Reads bytes as text with a replacement for each fault. -/
def readableUtf8 (bytes : List UInt8) : String :=
  readableFrom (bytes.length + 1) bytes

def ofUtf8 (bytes : ByteArray) : Except Utf8Fault String :=
  match String.fromUTF8? bytes with
  | some text => .ok text
  | none => .error ((firstFault? bytes.toList).getD (.invalid 0 1))

end Text

end GrammarReach
