/-!
# Relations as rows of bits

A relation on the numbers below `n` is kept as `n` rows; bit `j` of row `i` says
whether `i` is related to `j`.
-/

namespace GrammarReach

/-- The rows of a relation on small numbers. -/
structure BitMatrix where
  rows : Array Nat := #[]
deriving DecidableEq, Repr

namespace BitMatrix

/-- The row of a number, which is empty beyond the last one. -/
def row (matrix : BitMatrix) (source : Nat) : Nat :=
  matrix.rows.getD source 0

/-- The first number is related to the second one. -/
def holds (matrix : BitMatrix) (source target : Nat) : Bool :=
  (matrix.row source).testBit target

/-- The set of the given numbers as bits. -/
def bitsOf (members : List Nat) : Nat :=
  members.foldl (fun bits member => bits ||| 1 <<< member) 0

end BitMatrix

end GrammarReach
