import GrammarReach.Container.Keyed

/-!
# Values in keyed rows

What a row holds after values were appended to it, or after the rows that pass a
test were kept.
-/

namespace GrammarReach

namespace Keyed

variable {κ β : Type} [Ord κ] [Std.TransOrd κ] [Std.LawfulEqOrd κ] [DecidableEq κ]

theorem toList_row_push (keyed : Keyed κ β) (key other : κ) (value : β) :
    ((keyed.push key value).row other).toList =
      (keyed.row other).toList ++ if key = other then [value] else [] := by
  rw [row_push]
  by_cases same : key = other
  · subst same
    simp
  · simp [same]

theorem mem_row_push {keyed : Keyed κ β} {key other : κ} {value item : β} :
    item ∈ (keyed.push key value).row other ↔
      item ∈ keyed.row other ∨ (other = key ∧ item = value) := by
  rw [row_push]
  by_cases same : key = other
  · subst same
    simp
  · have different : ¬ other = key := fun equality => same equality.symm
    simp [same, different]

/-- A value that stands in the row already is not appended again, which does not
change what the row holds. -/
theorem mem_row_pushNew [BEq β] [LawfulBEq β] {keyed : Keyed κ β} {key other : κ}
    {value item : β} :
    item ∈ (keyed.pushNew key value).row other ↔
      item ∈ keyed.row other ∨ (other = key ∧ item = value) := by
  unfold pushNew
  by_cases known : (keyed.row key).contains value = true
  · rw [if_pos known]
    constructor
    · exact Or.inl
    · rintro (old | ⟨rfl, rfl⟩)
      · exact old
      · simpa using known
  · rw [if_neg known]
    exact mem_row_push

/-- One value is appended to the rows of several keys. -/
theorem mem_row_foldl_push {keys : List κ} {keyed : Keyed κ β} {other : κ}
    {value item : β} :
    item ∈ (keys.foldl (fun keyed key => keyed.push key value) keyed).row other ↔
      item ∈ keyed.row other ∨ (other ∈ keys ∧ item = value) := by
  induction keys generalizing keyed with
  | nil => simp
  | cons key keys induction =>
      rw [List.foldl_cons, induction, mem_row_push, List.mem_cons]
      constructor
      · rintro ((old | ⟨same, new⟩) | ⟨member, new⟩)
        · exact Or.inl old
        · exact Or.inr ⟨Or.inl same, new⟩
        · exact Or.inr ⟨Or.inr member, new⟩
      · rintro (old | ⟨same | member, new⟩)
        · exact Or.inl (Or.inl old)
        · exact Or.inl (Or.inr ⟨same, new⟩)
        · exact Or.inr ⟨member, new⟩

/-- A value that is appended under several different keys is appended to each row once. -/
theorem toList_row_foldl_push {keys : List κ} (distinct : keys.Nodup) (keyed : Keyed κ β)
    (other : κ) (value : β) :
    ((keys.foldl (fun keyed key => keyed.push key value) keyed).row other).toList =
      (keyed.row other).toList ++ if other ∈ keys then [value] else [] := by
  induction keys generalizing keyed with
  | nil => simp
  | cons key keys induction =>
      obtain ⟨fresh, distinct⟩ := List.nodup_cons.mp distinct
      rw [List.foldl_cons, induction distinct, toList_row_push]
      by_cases same : key = other
      · subst same
        simp [fresh]
      · have different : ¬ other = key := fun equality => same equality.symm
        simp [same, different]

omit [DecidableEq κ] in
theorem row_keep (keyed : Keyed κ β) (test : κ → Bool) (key : κ) :
    (keyed.keep test).row key = if test key then keyed.row key else #[] := by
  simp only [row, keep, Std.TreeMap.getD_eq_getD_getElem?, Std.TreeMap.getElem?_filter']
  cases found : keyed.rows[key]? with
  | none => simp
  | some row =>
      by_cases passes : test key = true
      · simp [passes, Option.filter]
      · simp [passes, Option.filter]

end Keyed

end GrammarReach
