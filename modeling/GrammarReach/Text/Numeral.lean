/-!
# Numerals

A numeral is an optional plus sign followed by one or more decimal digits.
Readers of bounded numbers refuse a numeral whose value reaches the bound.
-/

namespace GrammarReach

namespace Text

/-- The value of a row of decimal digits, continuing from `value`. -/
def digitsValueFrom (value : Nat) : List Char → Nat
  | [] => value
  | digit :: rest => digitsValueFrom (value * 10 + (digit.toNat - '0'.toNat)) rest

/-- The value of a row of decimal digits. -/
def digitsValue (digits : List Char) : Nat :=
  digitsValueFrom 0 digits

def dropPlus : List Char → List Char
  | '+' :: rest => rest
  | text => text

/-- Reads a whole text as a numeral with a value below `bound`. -/
def readNumeral (bound : Nat) (text : List Char) : Option Nat :=
  let digits := dropPlus text
  if digits.isEmpty || !digits.all Char.isDigit then
    none
  else
    let value := digitsValue digits
    if value < bound then some value else none

/-- Vertex names and counts are below this bound. -/
def wordBound : Nat := 0x10000000000000000

def halfWordBound : Nat := 0x100000000

/-- The number of binary digits of a machine word. -/
def wordBits : Nat := 64

/-- The decimal digits of a number, without leading zeros. -/
def decimal (value : Nat) : String :=
  Nat.repr value

end Text

end GrammarReach
