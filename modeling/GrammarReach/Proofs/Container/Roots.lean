import Mathlib.Data.Set.Card

/-!
# Roots of elements

The sets of a family are told apart by the roots of their elements.  An element is added as
its own root, and two sets are joined by giving the elements of one the root of the other.
-/

namespace GrammarReach

namespace DisjointSets

variable {α : Type}

/-- The elements with the given root. -/
def membersOf (root : α → Option α) (top : α) : Set α :=
  { element | root element = some top }

/-- The root of an element, which is its own root if it has no other one. -/
def topOf (root : α → Option α) (element : α) : α :=
  (root element).getD element

/-! ## Adding -/

variable [DecidableEq α] {root : α → Option α} {element other top upper lower left right : α}

/-- The roots when an element is added unless it has a root already. -/
def addedRoots (root : α → Option α) (element : α) : α → Option α :=
  fun other => if other = element then some (topOf root element) else root other

/-- The roots when two elements are added. -/
def bothRoots (root : α → Option α) (left right : α) : α → Option α :=
  addedRoots (addedRoots root left) right

theorem addedRoots_self : addedRoots root element element = some (topOf root element) :=
  if_pos rfl

theorem addedRoots_of_some (found : root element = some top) : addedRoots root element = root := by
  funext other
  unfold addedRoots
  split
  · rename_i same
    simp [same, topOf, found]
  · rfl

theorem addedRoots_of_ne (apart : other ≠ element) :
    addedRoots root element other = root other :=
  if_neg apart

theorem addedRoots_of_none (unknown : root element = none) :
    addedRoots root element element = some element := by
  simp [addedRoots, topOf, unknown]

theorem addedRoots_of_known (known : root other = some top) :
    addedRoots root element other = some top := by
  by_cases same : other = element
  · rw [same] at known ⊢
    rw [addedRoots_of_some known, known]
  · rw [addedRoots_of_ne same, known]

theorem addedRoots_eq_none : addedRoots root element other = none ↔
    other ≠ element ∧ root other = none := by
  unfold addedRoots
  split <;> simp [*]

theorem addedRoots_eq_some (unknown : root element = none) :
    addedRoots root element other = some top ↔
      other = element ∧ top = element ∨ root other = some top := by
  by_cases same : other = element
  · simp [same, addedRoots_of_none unknown, unknown, eq_comm]
  · simp [same, addedRoots_of_ne same]

theorem membersOf_addedRoots_self (unknown : root element = none)
    (idempotent : ∀ other top, root other = some top → root top = some top) :
    membersOf (addedRoots root element) element = {element} := by
  ext other
  refine (addedRoots_eq_some unknown).trans ⟨?_, fun same => .inl ⟨same, rfl⟩⟩
  rintro (⟨same, _⟩ | found)
  · exact same
  · have := idempotent other element found
    simp [unknown] at this

theorem membersOf_addedRoots_of_ne (unknown : root element = none) (apart : top ≠ element) :
    membersOf (addedRoots root element) top = membersOf root top := by
  ext other
  exact (addedRoots_eq_some unknown).trans (or_iff_right fun both => apart both.2)

theorem bothRoots_left : bothRoots root left right left = some (topOf root left) := by
  by_cases same : left = right
  · subst same
    rw [bothRoots, addedRoots_of_some addedRoots_self, addedRoots_self]
  · rw [bothRoots, addedRoots_of_ne same, addedRoots_self]

theorem bothRoots_right : bothRoots root left right right = some (topOf root right) := by
  by_cases same : left = right
  · subst same
    exact bothRoots_left
  · rw [bothRoots, addedRoots_self, topOf, addedRoots_of_ne (Ne.symm same), topOf]

/-! ## Joining -/

/-- The roots when the elements below a root come below another one. -/
def movedRoots (root : α → Option α) (upper lower : α) : α → Option α :=
  fun other => if root other = some lower then some upper else root other

/-- The roots when the sets of two elements are joined.  The larger set keeps its root, of two
equally large sets the first one. -/
noncomputable def joinedRoots (root : α → Option α) (left right : α) : α → Option α :=
  let both := bothRoots root left right
  if topOf root left = topOf root right then both
  else if (membersOf both (topOf root right)).ncard ≤ (membersOf both (topOf root left)).ncard then
    movedRoots both (topOf root left) (topOf root right)
  else movedRoots both (topOf root right) (topOf root left)

theorem movedRoots_eq_none : movedRoots root upper lower other = none ↔ root other = none := by
  unfold movedRoots
  split <;> simp [*]

theorem movedRoots_eq_some : movedRoots root upper lower other = some top ↔
    root other = some lower ∧ top = upper ∨ root other ≠ some lower ∧ root other = some top := by
  unfold movedRoots
  split <;> simp [*, eq_comm]

theorem membersOf_movedRoots_self :
    membersOf (movedRoots root upper lower) upper = membersOf root upper ∪ membersOf root lower := by
  ext other
  refine movedRoots_eq_some.trans ⟨?_, ?_⟩
  · rintro (⟨below, _⟩ | ⟨_, before⟩)
    · exact .inr below
    · exact .inl before
  · by_cases below : root other = some lower
    · exact fun _ => .inl ⟨below, rfl⟩
    · rintro (before | absurdly)
      · exact .inr ⟨below, before⟩
      · exact absurd absurdly below

theorem membersOf_movedRoots_of_ne (notUpper : top ≠ upper) (notLower : top ≠ lower) :
    membersOf (movedRoots root upper lower) top = membersOf root top := by
  ext other
  refine movedRoots_eq_some.trans ⟨?_, fun found => .inr ⟨?_, found⟩⟩
  · rintro (⟨_, same⟩ | ⟨_, before⟩)
    · exact absurd same notUpper
    · exact before
  · exact fun below => notLower (Option.some.inj (found.symm.trans below))

theorem isRoot_of_movedRoots (apart : upper ≠ lower) (upperRoot : root upper = some upper)
    (lowerRoot : root lower = some lower) :
    movedRoots root upper lower top = some top ↔ root top = some top ∧ top ≠ lower := by
  rw [movedRoots_eq_some]
  constructor
  · rintro (⟨below, rfl⟩ | ⟨notLower, before⟩)
    · exact absurd (Option.some.inj (upperRoot.symm.trans below)) apart
    · exact ⟨before, fun same => notLower (same ▸ lowerRoot)⟩
  · rintro ⟨before, notLower⟩
    exact .inr ⟨fun below => notLower (Option.some.inj (before.symm.trans below)), before⟩

theorem joinedRoots_eq_none :
    joinedRoots root left right other = none ↔ bothRoots root left right other = none := by
  simp only [joinedRoots]
  split
  · rfl
  · split <;> exact movedRoots_eq_none

theorem joinedRoots_congr {another : α}
    (same : bothRoots root left right other = bothRoots root left right another) :
    joinedRoots root left right other = joinedRoots root left right another := by
  simp only [joinedRoots]
  split
  · exact same
  · split <;> simp only [movedRoots, same]

/-- The root of an element is as before, or the root of one of the two elements is replaced by
the one of the other. -/
theorem joinedRoots_eq_some (found : joinedRoots root left right other = some top) :
    bothRoots root left right other = some top ∨
      bothRoots root left right other = some (topOf root left) ∧ top = topOf root right ∨
      bothRoots root left right other = some (topOf root right) ∧ top = topOf root left := by
  simp only [joinedRoots] at found
  split at found
  · exact .inl found
  · split at found
    · rcases movedRoots_eq_some.mp found with moved | ⟨_, before⟩
      · exact .inr (.inr moved)
      · exact .inl before
    · rcases movedRoots_eq_some.mp found with moved | ⟨_, before⟩
      · exact .inr (.inl moved)
      · exact .inl before

/-- Both elements have the root of the larger set, or the one of the first set if none is
larger. -/
theorem joinedRoots_left_right (root : α → Option α) (left right : α) :
    joinedRoots root left right left =
        (if (membersOf (bothRoots root left right) (topOf root right)).ncard ≤
            (membersOf (bothRoots root left right) (topOf root left)).ncard then
          some (topOf root left) else some (topOf root right)) ∧
      joinedRoots root left right right = joinedRoots root left right left := by
  simp only [joinedRoots]
  split
  · rename_i same
    simp [bothRoots_left, bothRoots_right, same]
  · rename_i apart
    split <;> simp [movedRoots, bothRoots_left, bothRoots_right, apart, Ne.symm apart]

/-! ## Listing -/

theorem filter_pairs_self (elements : List α) :
    ((elements.filterMap fun element => (root element).map fun top => (top, element)).filter
        fun (top, element) => top = element).map (·.1) =
      elements.filter fun top => root top = some top := by
  induction elements with
  | nil => rfl
  | cons element elements induction =>
      cases found : root element with
      | none => simpa [found] using induction
      | some top =>
          by_cases same : top = element
          · simpa [found, same] using induction
          · simpa [found, same] using induction

theorem filter_pairs_fst (elements : List α) (top : α) :
    ((elements.filterMap fun element => (root element).map fun top => (top, element)).filter
        (·.1 = top)).map (·.2) =
      elements.filter fun element => root element = some top := by
  induction elements with
  | nil => rfl
  | cons element elements induction =>
      cases found : root element with
      | none => simpa [found] using induction
      | some other =>
          by_cases same : other = top
          · simpa [found, same] using induction
          · simpa [found, same] using induction

end DisjointSets

end GrammarReach
