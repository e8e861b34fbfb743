import Std.Data.TreeMap.Lemmas

/-!
# Rows of values under keys

A keyed collection holds a row of values for every key and appends to the end of
a row.  Reading a row after an append is described by one equation.
-/

namespace GrammarReach

/-- Rows of values, each under its key. -/
structure Keyed (κ β : Type) [Ord κ] where
  rows : Std.TreeMap κ (Array β)

namespace Keyed

variable {κ β : Type} [Ord κ]

def empty : Keyed κ β := ⟨∅⟩

instance : Inhabited (Keyed κ β) := ⟨empty⟩

/-- The row under a key, which is empty for a new key. -/
def row (keyed : Keyed κ β) (key : κ) : Array β :=
  keyed.rows.getD key #[]

/-- Appends a value to the row under a key. -/
def push (keyed : Keyed κ β) (key : κ) (value : β) : Keyed κ β :=
  ⟨keyed.rows.alter key fun row => some ((row.getD #[]).push value)⟩

/-- Appends a value to the row under a key unless it stands there already. -/
def pushNew [BEq β] (keyed : Keyed κ β) (key : κ) (value : β) : Keyed κ β :=
  if (keyed.row key).contains value then keyed else keyed.push key value

/-- The keys with a row, in ascending order. -/
def keys (keyed : Keyed κ β) : List κ :=
  keyed.rows.keys

def total (keyed : Keyed κ β) : Nat :=
  keyed.rows.foldl (fun count _ row => count + row.size) 0

/-- Keeps the rows whose keys pass a test. -/
def keep (keyed : Keyed κ β) (test : κ → Bool) : Keyed κ β :=
  ⟨keyed.rows.filter fun key _ => test key⟩

theorem row_empty [Std.TransOrd κ] (key : κ) :
    (empty : Keyed κ β).row key = #[] := by
  simp [row, empty]

theorem row_push [Std.TransOrd κ] [Std.LawfulEqOrd κ] [DecidableEq κ]
    (keyed : Keyed κ β) (key other : κ) (value : β) :
    (keyed.push key value).row other =
      if key = other then (keyed.row key).push value else keyed.row other := by
  by_cases same : key = other
  · subst same
    simp [row, push, Std.TreeMap.getD_eq_getD_getElem?]
  · simp [row, push, Std.TreeMap.getD_eq_getD_getElem?, Std.TreeMap.getElem?_alter, same]

end Keyed

end GrammarReach
