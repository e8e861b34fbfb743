import GrammarReach.Container.DisjointSets

/-!
# Disjoint sets within an equivalence

If only related elements are joined, every element is related to its parent, whichever
way the trees are shortened and hung.  So the members of a set are all related.  Nothing
is said of how far a parent is from its root: a search that stops early is as sound.
-/

namespace GrammarReach

namespace DisjointSets

variable {α : Type} [Ord α]

/-- Every element is related to its parent. -/
def Within (sets : DisjointSets α) (related : α → α → Prop) : Prop :=
  ∀ element parent, sets.parents[element]? = some parent → related element parent

theorem within_empty [Std.TransOrd α] (related : α → α → Prop) :
    (empty : DisjointSets α).Within related := by
  intro element parent found
  simp [empty] at found

section Way

variable [DecidableEq α] {sets : DisjointSets α} {related : α → α → Prop}
  (within : sets.Within related) (equivalence : Equivalence related)

include within equivalence

private theorem Within.way (bound : Nat) (element : α) :
    ∀ other ∈ sets.way bound element, related element other := by
  have here : ∀ element, ∀ other ∈ [element], related element other := by
    intro element other member
    cases List.mem_singleton.mp member
    exact equivalence.refl element
  induction bound generalizing element with
  | zero => exact here element
  | succ bound induction =>
      unfold DisjointSets.way
      cases found : sets.parents[element]? with
      | none => exact here element
      | some parent =>
          simp only
          split
          · exact here element
          · intro other member
            rcases List.mem_cons.mp member with rfl | later
            · exact equivalence.refl other
            · exact equivalence.trans (within element parent found) (induction parent other later)

private theorem Within.root {element root : α} (found : sets.root? element = some root) :
    related element root := by
  unfold root? at found
  split at found
  · exact within.way equivalence _ element root (List.mem_of_getLast? found)
  · cases found

end Way

section Joining

variable [Std.TransOrd α] [Std.LawfulEqOrd α] {sets : DisjointSets α} {related : α → α → Prop}

private theorem Within.adopt (within : sets.Within related) {child parent : α}
    (joined : related child parent) (sizes : Std.TreeMap α Nat) :
    (⟨sets.parents.insert child parent, sizes⟩ : DisjointSets α).Within related := by
  intro element above found
  rw [Std.TreeMap.getElem?_insert] at found
  split at found
  · rename_i same
    cases found
    exact Std.LawfulEqOrd.eq_of_compare same ▸ joined
  · exact within element above found

theorem Within.insert (within : sets.Within related) (equivalence : Equivalence related)
    (element : α) : (sets.insert element).Within related := by
  unfold DisjointSets.insert
  split
  · exact within
  · exact within.adopt (equivalence.refl element) _

private theorem Within.hang (within : sets.Within related) {elements : List α} {root : α}
    (joined : ∀ element ∈ elements, related element root) :
    (sets.hang elements root).Within related := by
  unfold DisjointSets.hang
  induction elements generalizing sets with
  | nil => exact within
  | cons element elements induction =>
      obtain ⟨first, rest⟩ := List.forall_mem_cons.mp joined
      exact induction (within.adopt first sets.sizes) rest

variable [DecidableEq α]

theorem Within.find (within : sets.Within related) (equivalence : Equivalence related)
    (element : α) :
    (∀ root, (sets.find element).1 = some root → related element root) ∧
      (sets.find element).2.Within related := by
  unfold DisjointSets.find
  cases found : sets.root? element with
  | none => exact ⟨by simp, within⟩
  | some root =>
      have joined := within.root equivalence found
      refine ⟨fun other same => ?_, within.hang fun other member => ?_⟩
      · cases same
        exact joined
      · have onWay := within.way equivalence _ element other member
        exact equivalence.trans (equivalence.symm onWay) joined

/-- Related elements may be joined. -/
theorem Within.union (within : sets.Within related) (equivalence : Equivalence related)
    {left right : α} (joined : related left right) :
    (sets.union left right).2.Within related := by
  have known := (within.insert equivalence left).insert equivalence right
  unfold DisjointSets.union
  simp only
  generalize (sets.insert left).insert right = start at known
  obtain ⟨leftJoined, first⟩ := known.find equivalence left
  generalize start.find left = leftFound at leftJoined first
  obtain ⟨rightJoined, second⟩ := first.find equivalence right
  generalize leftFound.2.find right = rightFound at rightJoined second
  split
  · rename_i leftRoot rightRoot isLeft isRight
    have roots : related leftRoot rightRoot :=
      equivalence.trans (equivalence.symm (leftJoined leftRoot isLeft))
        (equivalence.trans joined (rightJoined rightRoot isRight))
    split
    · exact second
    · split
      · exact second.adopt (equivalence.symm roots) _
      · exact second.adopt roots _
  · exact second

theorem Within.findAll (within : sets.Within related) (equivalence : Equivalence related)
    (elements : List α) :
    ∀ pair ∈ (sets.findAll elements).1, related pair.1 pair.2 := by
  induction elements generalizing sets with
  | nil => simp [DisjointSets.findAll]
  | cons element elements induction =>
      obtain ⟨joined, next⟩ := within.find equivalence element
      have rest := induction next
      unfold DisjointSets.findAll
      simp only
      split
      · rename_i root found
        exact List.forall_mem_cons.mpr ⟨equivalence.symm (joined root found), rest⟩
      · exact rest

end Joining

end DisjointSets

end GrammarReach
