import GrammarReach.TextFilter.Basic

/-!
# Numbers with sixty-four significant bits

Numbers as the template filter reads and prints them: a whole number of at most
sixty-four bits times a power of two.  Reading rounds the written value once, to
the nearest such number and to an even one of two; printing rounds the exact value
once in the same way.
-/

namespace GrammarReach

namespace TextFilter

/-- A quotient rounded to the nearest whole number, and to an even one of two. -/
def roundQuotient (dividend divisor : Nat) : Nat :=
  let below := dividend / divisor
  let rest := 2 * (dividend % divisor)
  if rest < divisor then below
  else if divisor < rest then below + 1
  else below + below % 2

/-- The magnitude of a number: `significand` times two to the power of
`exponent`. -/
structure Magnitude where
  significand : Nat
  exponent : Int
deriving DecidableEq, Repr

namespace Magnitude

def precision : Nat := 64

def leastExponent : Int := -16445

/-- The greatest exponent of a significand with all bits. -/
def greatestExponent : Int := 16320

def numerator (magnitude : Magnitude) : Nat :=
  magnitude.significand * Nat.pow 2 magnitude.exponent.toNat

/-- The denominator of a magnitude, a power of two. -/
def denominator (magnitude : Magnitude) : Nat :=
  Nat.pow 2 (-magnitude.exponent).toNat

/-- The number of bits of a natural number. -/
def bitLength (value : Nat) : Nat :=
  if value = 0 then 0 else value.log2 + 1

/-- A fraction in units of a power of two, rounded. -/
def inUnits (dividend divisor : Nat) (exponent : Int) : Nat :=
  roundQuotient (dividend * Nat.pow 2 (-exponent).toNat) (divisor * Nat.pow 2 exponent.toNat)

/-- The magnitude nearest to a fraction; `none` when it is out of range, which is
also the case for a fraction below the normal ones that no magnitude equals. -/
def ofFraction (dividend divisor : Nat) : Option Magnitude :=
  if dividend = 0 then
    some ⟨0, 0⟩
  else
    let guess : Int := (bitLength dividend : Int) - bitLength divisor - precision
    let fits (exponent : Int) : Bool :=
      decide (bitLength (inUnits dividend divisor exponent) ≤ precision)
    let free := if fits guess then guess else guess + 1
    let exponent := if free < leastExponent then leastExponent else free
    let significand := inUnits dividend divisor exponent
    let magnitude : Magnitude := ⟨significand, exponent⟩
    if greatestExponent < exponent then
      none
    else if bitLength significand < precision ∧ exponent = leastExponent ∧
        magnitude.numerator * divisor ≠ dividend * magnitude.denominator then
      none
    else
      some magnitude

/-- The magnitude times a power of ten, rounded to a whole number. -/
def scaled (magnitude : Magnitude) (power : Int) : Nat :=
  roundQuotient (magnitude.numerator * Nat.pow 10 power.toNat)
    (magnitude.denominator * Nat.pow 10 (-power).toNat)

/-- The power of ten of the leading digit, searched upwards from `power`. -/
def leadingPowerFrom (magnitude : Magnitude) : Nat → Int → Int
  | 0, power => power
  | bound + 1, power =>
      let next := power + 1
      if magnitude.denominator * Nat.pow 10 next.toNat ≤
          magnitude.numerator * Nat.pow 10 (-next).toNat then
        leadingPowerFrom magnitude bound next
      else
        power

/-- The power of ten of the leading digit.  The length in bits says it up to two. -/
def leadingPower (magnitude : Magnitude) : Int :=
  if magnitude.significand = 0 then
    0
  else
    let bits : Int := (bitLength magnitude.significand : Int) + magnitude.exponent - 1
    leadingPowerFrom magnitude 4 (Int.fdiv (bits * 30103) 100000 - 2)

end Magnitude

/-- A number as the template filter knows it. -/
inductive ExtendedNumber where
  | finite (negative : Bool) (magnitude : Magnitude)
  | infinite (negative : Bool)
  | undefined (negative : Bool)
deriving DecidableEq, Repr

/-- Drops a word in either case from the front. -/
def dropWord (word : String) (bytes : List UInt8) : Option (List UInt8) :=
  let lower (byte : UInt8) : UInt8 :=
    if ascii 'A' ≤ byte && byte ≤ ascii 'Z' then byte + 32 else byte
  let letters := word.toList.map ascii
  if (bytes.take letters.length).map lower == letters then some (bytes.drop letters.length)
  else none

/-- Reads digits with a point among them.  Returns their value, how many stand
behind the point, how many there are and what follows. -/
def readPointed (base : Nat) (digit? : UInt8 → Option Nat) (bytes : List UInt8) :
    Nat × Nat × Nat × List UInt8 :=
  let (whole, rest) := readDigits base digit? bytes.length 0 bytes
  let wholeCount := bytes.length - rest.length
  match rest with
  | point :: behind =>
      if point = ascii '.' then
        let (value, left) := readDigits base digit? behind.length whole behind
        let count := behind.length - left.length
        if wholeCount + count = 0 then (0, 0, 0, bytes)
        else (value, count, wholeCount + count, left)
      else
        (whole, 0, wholeCount, rest)
  | [] => (whole, 0, wholeCount, rest)

def decimalDigit? (byte : UInt8) : Option Nat :=
  if isDigit byte then some (byte - ascii '0').toNat else none

/-- Reads an exponent behind its letter, if there is one with digits. -/
def readExponent (letter : Char) (bytes : List UInt8) : Int × List UInt8 :=
  let signed (negative : Bool) (digits : List UInt8) : Int × List UInt8 :=
    let (value, rest) := readDigits 10 decimalDigit? digits.length 0 digits
    if rest.length = digits.length then (0, bytes)
    else (if negative then -(value : Int) else value, rest)
  match bytes with
  | first :: rest =>
      if first = ascii letter || first + 32 = ascii letter then
        match rest with
        | sign :: digits =>
            if sign = ascii '-' then signed true digits
            else if sign = ascii '+' then signed false digits
            else signed false rest
        | [] => (0, bytes)
      else
        (0, bytes)
  | [] => (0, bytes)

/-- The magnitude of a value times a power of a base.  Powers far out of range are
not computed. -/
def magnitudeOf (value base : Nat) (power : Int) : Option Magnitude :=
  let reach : Int := 20000 + 4 * Magnitude.bitLength value
  if value = 0 then some ⟨0, 0⟩
  else if reach < power ∨ power < -reach then none
  else Magnitude.ofFraction (value * Nat.pow base power.toNat) (Nat.pow base (-power).toNat)

/-- What was read of a number: the number, or `none` when it is out of range, and
what follows. -/
abbrev ReadNumber := Option ExtendedNumber × List UInt8

def readDecimal (negative : Bool) (bytes : List UInt8) : Option ReadNumber :=
  let (value, places, count, rest) := readPointed 10 decimalDigit? bytes
  if count = 0 then
    none
  else
    let (power, rest) := readExponent 'e' rest
    some ((magnitudeOf value 10 (power - places)).map (.finite negative), rest)

/-- Reads a hexadecimal number behind its sign, if it is one. -/
def readHexadecimal (negative : Bool) (bytes : List UInt8) : Option ReadNumber :=
  match dropWord "0x" bytes with
  | none => none
  | some digits =>
      let (value, places, count, rest) := readPointed 16 hexDigit? digits
      if count = 0 then
        none
      else
        let (power, rest) := readExponent 'p' rest
        some ((magnitudeOf value 2 (power - 4 * places)).map (.finite negative), rest)

/-- Reads the note in parentheses that can follow a word for no number. -/
def dropNote (bytes : List UInt8) : List UInt8 :=
  match bytes with
  | first :: rest =>
      let isNoteByte (byte : UInt8) : Bool :=
        (hexDigit? byte).isSome || byte == ascii '_' ||
          (ascii 'a' ≤ byte && byte ≤ ascii 'z') || (ascii 'A' ≤ byte && byte ≤ ascii 'Z')
      match rest.dropWhile isNoteByte with
      | close :: behind =>
          if first = ascii '(' ∧ close = ascii ')' then behind else bytes
      | [] => bytes
  | [] => bytes

def readUnsigned (negative : Bool) (bytes : List UInt8) : Option ReadNumber :=
  match dropWord "infinity" bytes with
  | some rest => some (some (.infinite negative), rest)
  | none =>
      match dropWord "inf" bytes with
      | some rest => some (some (.infinite negative), rest)
      | none =>
          match dropWord "nan" bytes with
          | some rest => some (some (.undefined negative), dropNote rest)
          | none => (readHexadecimal negative bytes).or (readDecimal negative bytes)

/-- Reads a number from the front; `none` when there is none. -/
def readExtended (bytes : List UInt8) : Option ReadNumber :=
  match bytes with
  | first :: rest =>
      if first = ascii '-' then readUnsigned true rest
      else if first = ascii '+' then readUnsigned false rest
      else readUnsigned false bytes
  | [] => none

/-- How a number is laid out. -/
structure NumberLayout where
  /-- The number of places, where it is given. -/
  precision : Option Nat
  /-- Points and zeros that could be left out are kept. -/
  keepsAll : Bool
deriving DecidableEq, Repr

def digitsOf (value : Nat) : List UInt8 :=
  Text.bytesOf (Text.decimal value)

/-- The digits of a natural number, filled up with zeros in front. -/
def paddedDigits (least : Nat) (value : Nat) : List UInt8 :=
  let digits := digitsOf value
  List.replicate (least - digits.length) (ascii '0') ++ digits

/-- Digits behind a point, without a point where there are none. -/
def pointed (keepsAll : Bool) (whole fraction : List UInt8) : List UInt8 :=
  if fraction.isEmpty && !keepsAll then whole else whole ++ ascii '.' :: fraction

def withoutZeros (digits : List UInt8) : List UInt8 :=
  (digits.reverse.dropWhile (· == ascii '0')).reverse

def exponentText (letter : Char) (least : Nat) (power : Int) : List UInt8 :=
  [ascii letter, if power < 0 then ascii '-' else ascii '+'] ++ paddedDigits least power.natAbs

namespace Magnitude

/-- Digits in front of the point and behind it. -/
def fixedParts (magnitude : Magnitude) (places : Nat) : List UInt8 × List UInt8 :=
  let digits := paddedDigits (places + 1) (magnitude.scaled places)
  (digits.take (digits.length - places), digits.drop (digits.length - places))

/-- The first digit, the places behind it and the power of ten of the first
digit. -/
def scientificParts (magnitude : Magnitude) (places : Nat) :
    List UInt8 × List UInt8 × Int :=
  let power := magnitude.leadingPower
  let digits := paddedDigits (places + 1) (magnitude.scaled (places - power))
  if digits.length = places + 1 then
    (digits.take 1, digits.drop 1, power)
  else
    (digits.take 1, (digits.drop 1).take places, power + 1)

/-- The number with a fixed number of places. -/
def fixedText (magnitude : Magnitude) (layout : NumberLayout) : List UInt8 :=
  let (whole, fraction) := magnitude.fixedParts (layout.precision.getD 6)
  pointed layout.keepsAll whole fraction

/-- The number with one digit in front of the point and a power of ten. -/
def scientificText (magnitude : Magnitude) (layout : NumberLayout) : List UInt8 :=
  let (whole, fraction, power) := magnitude.scientificParts (layout.precision.getD 6)
  pointed layout.keepsAll whole fraction ++ exponentText 'e' 2 power

/-- The number with a number of significant digits, in the shorter of the two
forms. -/
def generalText (magnitude : Magnitude) (layout : NumberLayout) : List UInt8 :=
  let digits := max 1 (layout.precision.getD 6)
  let (whole, fraction, power) := magnitude.scientificParts (digits - 1)
  let trim (places : List UInt8) : List UInt8 :=
    if layout.keepsAll then places else withoutZeros places
  if -4 ≤ power ∧ power < digits then
    let (whole, fraction) := magnitude.fixedParts ((digits : Int) - 1 - power).toNat
    pointed layout.keepsAll whole (trim fraction)
  else
    pointed layout.keepsAll whole (trim fraction) ++ exponentText 'e' 2 power

def hexDigit (value : Nat) : UInt8 :=
  if value < 10 then ascii '0' + value.toUInt8 else ascii 'a' + (value - 10).toUInt8

/-- The hexadecimal digits of a natural number, of which there are `count`. -/
def hexDigits : Nat → Nat → List UInt8
  | 0, _ => []
  | count + 1, value => hexDigits count (value / 16) ++ [hexDigit (value % 16)]

/-- The significand with its bits moved up as far as they go, and the exponent of
two of its lowest bit. -/
def normalized (magnitude : Magnitude) : Nat × Int :=
  let room := (precision : Int) - bitLength magnitude.significand
  let free := magnitude.exponent - room
  let lowest := leastExponent
  let exponent := if free < lowest then lowest else free
  (magnitude.significand * Nat.pow 2 (magnitude.exponent - exponent).toNat, exponent)

/-- The number in hexadecimal with a power of two. -/
def hexadecimalText (magnitude : Magnitude) (layout : NumberLayout) : List UInt8 :=
  let (significand, exponent) :=
    if magnitude.significand = 0 then (0, -60) else magnitude.normalized
  let written (digits : Nat) (value : Nat) (power : Int) : List UInt8 :=
    let text := hexDigits (digits + 1) value
    let fraction := match layout.precision with
      | none => withoutZeros (text.drop 1)
      | some places => text.drop 1 ++ List.replicate (places - digits) (ascii '0')
    Text.bytesOf "0x" ++ pointed layout.keepsAll (text.take 1) fraction ++
      exponentText 'p' 1 power
  let power := exponent + 60
  match layout.precision with
  | some places =>
      if places < 15 then
        let rounded := roundQuotient significand (Nat.pow 16 (15 - places))
        if rounded < Nat.pow 16 (places + 1) then written places rounded power
        else written places (rounded / 16) (power + 4)
      else
        written 15 significand power
  | none => written 15 significand power

end Magnitude

end TextFilter

end GrammarReach
