import GrammarReach.Container.DisjointSets
import GrammarReach.Proofs.Container.Roots

/-!
# Trees of parents

The way along the parents reaches the root of an element.  Ranks that grow along the parents
bound its length: below a root there are at least two to the power of its rank elements, so
the way ends before it has as many steps as there are elements.  Searching keeps all roots,
and joining moves the elements of the smaller set to the root of the larger one.
-/

namespace GrammarReach

namespace DisjointSets

variable {α : Type}

/-! ## Ranks -/

section Ranks

variable [DecidableEq α] {other upper lower : α}

/-- The ranks when a root comes below another one. -/
def raisedRank (rank : α → Nat) (upper lower : α) : α → Nat :=
  fun other => if other = upper then max (rank upper) (rank lower + 1) else rank other

private theorem le_raisedRank (rank : α → Nat) (other : α) :
    rank other ≤ raisedRank rank upper lower other := by
  unfold raisedRank
  split
  · rename_i same
    rw [same]
    exact le_max_left _ _
  · exact le_rfl

private theorem raisedRank_of_ne (rank : α → Nat) (apart : other ≠ upper) :
    raisedRank rank upper lower other = rank other :=
  if_neg apart

end Ranks

/-- Each element that is in a set has a root, which is its own parent and at which the size of
the set is kept.  Ranks grow along the parents, and no root has a larger rank than its number
of elements allows. -/
structure Forest [Ord α] (sets : DisjointSets α) (root : α → Option α) (rank : α → Nat) :
    Prop where
  known : ∀ element, root element = none ↔ element ∉ sets.parents
  parent : ∀ element above, sets.parents[element]? = some above → root element = root above
  own : ∀ top, sets.parents[top]? = some top ↔ root top = some top
  idempotent : ∀ element top, root element = some top → root top = some top
  counted : ∀ top, root top = some top → sets.sizes[top]? = some (membersOf root top).ncard
  climbs : ∀ element above, sets.parents[element]? = some above → above ≠ element →
    rank element < rank above
  bounded : ∀ element top, root element = some top → rank element ≤ rank top
  filled : ∀ top, root top = some top → 2 ^ rank top ≤ (membersOf root top).ncard
  fresh : ∀ element, root element = none → rank element = 0

namespace Forest

variable [Ord α] {sets : DisjointSets α} {root : α → Option α} {rank : α → Nat}
  {element other top upper lower : α}

theorem mem_of_root (forest : Forest sets root rank) (found : root element = some top) :
    element ∈ sets.parents := by
  by_contra unknown
  rw [(forest.known element).mpr unknown] at found
  cases found

theorem root_of_mem (forest : Forest sets root rank) (member : element ∈ sets.parents) :
    ∃ top, root element = some top :=
  Option.ne_none_iff_exists'.mp fun unknown => (forest.known element).mp unknown member

variable [Std.TransOrd α]

theorem sizeAt_eq (forest : Forest sets root rank) (isRoot : root top = some top) :
    sets.sizeAt top = (membersOf root top).ncard := by
  rw [sizeAt, Std.TreeMap.getD_eq_getD_getElem?, forest.counted top isRoot]
  rfl

theorem rank_lt (forest : Forest sets root rank) (found : root element = some top)
    (below : element ≠ top) : rank element < rank top := by
  have member := forest.mem_of_root found
  obtain ⟨above, isParent⟩ : ∃ above, sets.parents[element]? = some above :=
    ⟨_, Std.TreeMap.getElem?_eq_some_getElem member⟩
  have other : above ≠ element := by
    rintro rfl
    have itself := (forest.own above).mp isParent
    exact below (Option.some.inj (itself.symm.trans found))
  have onward : root above = some top := (forest.parent element above isParent).symm.trans found
  have climbs := forest.climbs element above isParent other
  have bounded := forest.bounded above top onward
  omega

theorem empty : Forest (.empty : DisjointSets α) (fun _ => none) fun _ => 0 where
  known := by simp [DisjointSets.empty]
  parent := by simp
  own := by simp [DisjointSets.empty]
  idempotent := by simp
  counted := by simp
  climbs := by simp [DisjointSets.empty]
  bounded := by simp
  filled := by simp
  fresh := by simp

/-! ## The way to the root -/

section Way

variable [DecidableEq α]

omit [Std.TransOrd α] in
theorem root_of_mem_way (forest : Forest sets root rank) (bound : Nat) :
    ∀ other ∈ sets.way bound element, root other = root element := by
  induction bound generalizing element with
  | zero => simp [way]
  | succ bound induction =>
      unfold way
      cases isParent : sets.parents[element]? with
      | none => simp
      | some above =>
          simp only
          split
          · simp
          · intro other member
            rcases List.mem_cons.mp member with rfl | later
            · rfl
            · rw [induction other later, forest.parent element above isParent]

theorem getLast?_way (forest : Forest sets root rank) (found : root element = some top)
    {bound : Nat} (enough : rank top ≤ rank element + bound) :
    (sets.way bound element).getLast? = some top := by
  induction bound generalizing element with
  | zero =>
      have same : element = top := by
        by_contra below
        have := forest.rank_lt found below
        omega
      simp [way, same]
  | succ bound induction =>
      have member := forest.mem_of_root found
      unfold way
      rw [Std.TreeMap.getElem?_eq_some_getElem member]
      have isParent := Std.TreeMap.getElem?_eq_some_getElem member
      generalize sets.parents[element] = above at isParent
      simp only
      split
      · rename_i same
        subst same
        have itself := (forest.own above).mp isParent
        simpa using itself.symm.trans found
      · rename_i other
        have onward : root above = some top :=
          (forest.parent element above isParent).symm.trans found
        have climbs := forest.climbs element above isParent other
        have ended := induction onward (by omega)
        rw [List.getLast?_cons, ended]
        rfl

end Way

variable [Std.LawfulEqOrd α]

theorem finite_membersOf (forest : Forest sets root rank) : (membersOf root top).Finite :=
  (List.finite_toSet sets.parents.keys).subset fun _ found =>
    Std.TreeMap.mem_keys.mpr (forest.mem_of_root found)

theorem ncard_membersOf_le (forest : Forest sets root rank) :
    (membersOf root top).ncard ≤ sets.size := by
  classical
  have listed : membersOf root top ⊆ ↑sets.parents.keys.toFinset := fun element found =>
    List.mem_toFinset.mpr (Std.TreeMap.mem_keys.mpr (forest.mem_of_root found))
  calc (membersOf root top).ncard ≤ (↑sets.parents.keys.toFinset : Set α).ncard :=
        Set.ncard_le_ncard listed (Finset.finite_toSet _)
    _ = sets.parents.keys.toFinset.card := Set.ncard_coe_finset _
    _ ≤ sets.parents.keys.length := List.toFinset_card_le _
    _ = sets.size := Std.TreeMap.length_keys

theorem rank_lt_size (forest : Forest sets root rank) (found : root top = some top) :
    rank top < sets.size :=
  calc rank top < 2 ^ rank top := Nat.lt_two_pow_self
    _ ≤ (membersOf root top).ncard := forest.filled top found
    _ ≤ sets.size := forest.ncard_membersOf_le

/-! ## Searching -/

private theorem getElem?_insert_eq_some {β : Type} {entries : Std.TreeMap α β} {value held : β} :
    (entries.insert element value)[other]? = some held ↔
      other = element ∧ value = held ∨ other ≠ element ∧ entries[other]? = some held := by
  rw [Std.TreeMap.getElem?_insert]
  by_cases same : other = element
  · simp [same]
  · simp [same, Ne.symm same]

private theorem adopt (forest : Forest sets root rank) (found : root element = some top) :
    Forest { sets with parents := sets.parents.insert element top } root rank where
  known other := by
    have member := forest.mem_of_root found
    rw [forest.known other, Std.TreeMap.mem_insert, Std.LawfulEqOrd.compare_eq_iff_eq]
    refine not_congr ⟨.inr, ?_⟩
    rintro (rfl | known)
    · exact member
    · exact known
  parent other above isParent := by
    rcases getElem?_insert_eq_some.mp isParent with ⟨rfl, rfl⟩ | ⟨_, before⟩
    · rw [found, forest.idempotent other top found]
    · exact forest.parent other above before
  own other := by
    rw [getElem?_insert_eq_some, forest.own]
    by_cases same : other = element
    · simp [same, found]
    · simp [same]
  idempotent := forest.idempotent
  counted := forest.counted
  climbs other above isParent apart := by
    rcases getElem?_insert_eq_some.mp isParent with ⟨rfl, rfl⟩ | ⟨_, before⟩
    · exact forest.rank_lt found apart.symm
    · exact forest.climbs other above before apart
  bounded := forest.bounded
  filled := forest.filled
  fresh := forest.fresh

theorem hang (forest : Forest sets root rank) {elements : List α}
    (found : ∀ element ∈ elements, root element = some top) :
    Forest (sets.hang elements top) root rank := by
  unfold DisjointSets.hang
  induction elements generalizing sets with
  | nil => exact forest
  | cons element elements induction =>
      obtain ⟨first, rest⟩ := List.forall_mem_cons.mp found
      exact induction (forest.adopt first) rest

variable [DecidableEq α]

theorem root?_eq (forest : Forest sets root rank) (element : α) :
    sets.root? element = root element := by
  unfold root?
  split
  · rename_i member
    obtain ⟨top, found⟩ := forest.root_of_mem (Std.TreeMap.contains_iff_mem.mp member)
    have climbs := forest.rank_lt_size (forest.idempotent element top found)
    rw [found, forest.getLast?_way found (by omega)]
  · rename_i unknown
    exact ((forest.known element).mpr fun member =>
      unknown (Std.TreeMap.contains_iff_mem.mpr member)).symm

theorem find (forest : Forest sets root rank) (element : α) :
    (sets.find element).1 = root element ∧ Forest (sets.find element).2 root rank := by
  unfold DisjointSets.find
  rw [forest.root?_eq]
  cases found : root element with
  | none => exact ⟨rfl, forest⟩
  | some top =>
      refine ⟨rfl, forest.hang fun other member => ?_⟩
      rw [forest.root_of_mem_way _ other member, found]

theorem findAll (forest : Forest sets root rank) (elements : List α) :
    (sets.findAll elements).1 =
        elements.filterMap (fun element => (root element).map fun top => (top, element)) ∧
      Forest (sets.findAll elements).2 root rank := by
  induction elements generalizing sets with
  | nil => exact ⟨rfl, forest⟩
  | cons element elements induction =>
      obtain ⟨first, next⟩ := forest.find element
      obtain ⟨rest, last⟩ := induction next
      unfold DisjointSets.findAll
      simp only [first]
      cases found : root element with
      | none => exact ⟨by simp [found, rest], last⟩
      | some top => exact ⟨by simp [found, rest], last⟩

theorem groups (forest : Forest sets root rank) :
    sets.groups.1 = ((sets.parents.keys.filter fun top => root top = some top).map fun top =>
        (top, sets.parents.keys.filter fun element => root element = some top)) ∧
      Forest sets.groups.2 root rank := by
  obtain ⟨found, next⟩ := forest.findAll sets.parents.keys
  refine ⟨?_, next⟩
  unfold DisjointSets.groups
  simp only [found, filter_pairs_self, filter_pairs_fst]

/-! ## Adding and joining -/

private theorem grow (forest : Forest sets root rank) (unknown : root element = none) :
    Forest ⟨sets.parents.insert element element, sets.sizes.insert element 1⟩
      (addedRoots root element) rank where
  known other := by
    rw [addedRoots_eq_none, forest.known, Std.TreeMap.mem_insert,
      Std.LawfulEqOrd.compare_eq_iff_eq, not_or, eq_comm]
  parent other above isParent := by
    rcases getElem?_insert_eq_some.mp isParent with ⟨rfl, rfl⟩ | ⟨apart, before⟩
    · rfl
    · have same := forest.parent other above before
      have known : above ≠ element := by
        rintro rfl
        rw [unknown, forest.known] at same
        exact same (Std.TreeMap.mem_iff_isSome_getElem?.mpr (by simp [before]))
      rw [addedRoots_of_ne apart, addedRoots_of_ne known, same]
  own top := by
    rw [getElem?_insert_eq_some, forest.own]
    by_cases same : top = element
    · simp [same, addedRoots_of_none unknown]
    · simp [same, addedRoots_of_ne same]
  idempotent other top found := by
    rcases addedRoots_eq_some unknown |>.mp found with ⟨rfl, rfl⟩ | before
    · exact found
    · exact (addedRoots_eq_some unknown).mpr (.inr (forest.idempotent other top before))
  counted top isRoot := by
    rcases addedRoots_eq_some unknown |>.mp isRoot with ⟨rfl, _⟩ | before
    · simp [membersOf_addedRoots_self unknown forest.idempotent]
    · have apart : top ≠ element := fun same => by simp [same, unknown] at before
      rw [membersOf_addedRoots_of_ne unknown apart]
      exact getElem?_insert_eq_some.mpr (.inr ⟨apart, forest.counted top before⟩)
  climbs other above isParent apart := by
    rcases getElem?_insert_eq_some.mp isParent with ⟨rfl, rfl⟩ | ⟨_, before⟩
    · exact absurd rfl apart
    · exact forest.climbs other above before apart
  bounded other top found := by
    rcases addedRoots_eq_some unknown |>.mp found with ⟨rfl, rfl⟩ | before
    · exact le_rfl
    · exact forest.bounded other top before
  filled top isRoot := by
    rcases addedRoots_eq_some unknown |>.mp isRoot with ⟨rfl, _⟩ | before
    · simp [membersOf_addedRoots_self unknown forest.idempotent, forest.fresh top unknown]
    · have apart : top ≠ element := fun same => by simp [same, unknown] at before
      rw [membersOf_addedRoots_of_ne unknown apart]
      exact forest.filled top before
  fresh other none := forest.fresh other (addedRoots_eq_none.mp none).2

theorem insert (forest : Forest sets root rank) (element : α) :
    Forest (sets.insert element) (addedRoots root element) rank := by
  unfold DisjointSets.insert
  split
  · rename_i member
    obtain ⟨top, found⟩ := forest.root_of_mem (Std.TreeMap.contains_iff_mem.mp member)
    rwa [addedRoots_of_some found]
  · rename_i unknown
    have none : root element = none := (forest.known element).mpr fun member =>
      unknown (Std.TreeMap.contains_iff_mem.mpr member)
    exact forest.grow none

private theorem ncard_movedRoots (forest : Forest sets root rank) (apart : upper ≠ lower) :
    (membersOf (movedRoots root upper lower) upper).ncard =
      (membersOf root upper).ncard + (membersOf root lower).ncard := by
  have disjoint : Disjoint (membersOf root upper) (membersOf root lower) :=
    Set.disjoint_left.mpr fun other above below =>
      apart (Option.some.inj (above.symm.trans below))
  rw [membersOf_movedRoots_self,
    Set.ncard_union_eq disjoint forest.finite_membersOf forest.finite_membersOf]

private theorem pow_raisedRank_le (forest : Forest sets root rank) (apart : upper ≠ lower)
    (upperRoot : root upper = some upper) (lowerRoot : root lower = some lower)
    (smaller : (membersOf root lower).ncard ≤ (membersOf root upper).ncard) :
    2 ^ raisedRank rank upper lower upper ≤
      (membersOf (movedRoots root upper lower) upper).ncard := by
  have upperFilled := forest.filled upper upperRoot
  have lowerFilled := forest.filled lower lowerRoot
  rw [forest.ncard_movedRoots apart, raisedRank, if_pos rfl]
  rcases max_cases (rank upper) (rank lower + 1) with ⟨larger, _⟩ | ⟨larger, _⟩
  · rw [larger]
    omega
  · rw [larger, Nat.pow_succ]
    omega

private theorem climbs_link (forest : Forest sets root rank)
    (upperRoot : root upper = some upper) {other above : α}
    (isParent : (sets.link upper lower).parents[other]? = some above) (different : above ≠ other) :
    raisedRank rank upper lower other < raisedRank rank upper lower above := by
  rcases getElem?_insert_eq_some.mp isParent with ⟨rfl, rfl⟩ | ⟨_, before⟩
  · rw [raisedRank_of_ne rank different.symm, raisedRank, if_pos rfl]
    omega
  · have notUpper : other ≠ upper := by
      rintro rfl
      have itself := (forest.own other).mpr upperRoot
      exact different (Option.some.inj (before.symm.trans itself))
    rw [raisedRank_of_ne rank notUpper]
    exact (forest.climbs other above before different).trans_le (le_raisedRank rank above)

omit [Std.TransOrd α] [Std.LawfulEqOrd α] in
private theorem bounded_link (forest : Forest sets root rank) (apart : upper ≠ lower)
    (upperRoot : root upper = some upper) {other top : α}
    (found : movedRoots root upper lower other = some top) :
    raisedRank rank upper lower other ≤ raisedRank rank upper lower top := by
  rcases movedRoots_eq_some.mp found with ⟨below, rfl⟩ | ⟨_, before⟩
  · have bounded := forest.bounded other lower below
    have notUpper : other ≠ top := by
      rintro rfl
      exact apart (Option.some.inj (upperRoot.symm.trans below))
    rw [raisedRank_of_ne rank notUpper, raisedRank, if_pos rfl]
    omega
  · by_cases same : other = upper
    · subst same
      rw [Option.some.inj (upperRoot.symm.trans before)]
    · rw [raisedRank_of_ne rank same]
      exact (forest.bounded other top before).trans (le_raisedRank rank top)

/-- Hanging the root of the smaller set below the other root moves its elements there. -/
theorem link (forest : Forest sets root rank) (apart : upper ≠ lower)
    (upperRoot : root upper = some upper) (lowerRoot : root lower = some lower)
    (smaller : (membersOf root lower).ncard ≤ (membersOf root upper).ncard) :
    Forest (sets.link upper lower) (movedRoots root upper lower) (raisedRank rank upper lower) where
  known other := by
    rw [movedRoots_eq_none, forest.known, DisjointSets.link, Std.TreeMap.mem_insert,
      Std.LawfulEqOrd.compare_eq_iff_eq, not_or]
    refine ⟨fun unknown => ⟨?_, unknown⟩, And.right⟩
    rintro rfl
    exact unknown (forest.mem_of_root lowerRoot)
  parent other above isParent := by
    rcases getElem?_insert_eq_some.mp isParent with ⟨rfl, rfl⟩ | ⟨_, before⟩
    · simp [movedRoots, upperRoot, lowerRoot, apart]
    · simp only [movedRoots, forest.parent other above before]
  own top := by
    rw [isRoot_of_movedRoots apart upperRoot lowerRoot, DisjointSets.link,
      getElem?_insert_eq_some, forest.own]
    constructor
    · rintro (⟨rfl, same⟩ | ⟨notLower, isRoot⟩)
      · exact absurd same apart
      · exact ⟨isRoot, notLower⟩
    · rintro ⟨isRoot, notLower⟩
      exact .inr ⟨notLower, isRoot⟩
  idempotent other top found := by
    rw [isRoot_of_movedRoots apart upperRoot lowerRoot]
    rcases movedRoots_eq_some.mp found with ⟨_, rfl⟩ | ⟨notBelow, before⟩
    · exact ⟨upperRoot, apart⟩
    · exact ⟨forest.idempotent other top before, fun same => notBelow (same ▸ before)⟩
  counted top isRoot := by
    obtain ⟨before, notLower⟩ := (isRoot_of_movedRoots apart upperRoot lowerRoot).mp isRoot
    rw [DisjointSets.link, getElem?_insert_eq_some]
    by_cases same : top = upper
    · subst same
      refine .inl ⟨rfl, ?_⟩
      rw [forest.ncard_movedRoots apart, forest.sizeAt_eq upperRoot, forest.sizeAt_eq lowerRoot]
    · rw [membersOf_movedRoots_of_ne same notLower]
      exact .inr ⟨same, forest.counted top before⟩
  climbs _ _ isParent different := forest.climbs_link upperRoot isParent different
  bounded _ _ found := forest.bounded_link apart upperRoot found
  filled top isRoot := by
    obtain ⟨before, notLower⟩ := (isRoot_of_movedRoots apart upperRoot lowerRoot).mp isRoot
    by_cases same : top = upper
    · subst same
      exact forest.pow_raisedRank_le apart upperRoot lowerRoot smaller
    · rw [raisedRank_of_ne rank same, membersOf_movedRoots_of_ne same notLower]
      exact forest.filled top before
  fresh other unknown := by
    have before := movedRoots_eq_none.mp unknown
    have notUpper : other ≠ upper := fun same => by simp [same, upperRoot] at before
    rw [raisedRank_of_ne rank notUpper]
    exact forest.fresh other before

/-- Joining two elements tells whether they had different roots and joins their roots. -/
theorem union (forest : Forest sets root rank) (left right : α) :
    ((sets.union left right).1 = true ↔ topOf root left ≠ topOf root right) ∧
    ∃ rank, Forest (sets.union left right).2 (joinedRoots root left right) rank := by
  have start : Forest _ (bothRoots root left right) rank := (forest.insert left).insert right
  obtain ⟨leftFound, afterLeft⟩ := start.find left
  obtain ⟨rightFound, both⟩ := afterLeft.find right
  have leftRoot := start.idempotent left _ bothRoots_left
  have rightRoot := start.idempotent right _ bothRoots_right
  rw [bothRoots_left] at leftFound
  rw [bothRoots_right] at rightFound
  unfold DisjointSets.union joinedRoots
  simp only [leftFound, rightFound]
  split
  · rename_i same
    exact ⟨by simp [same], rank, both⟩
  · rename_i apart
    rw [both.sizeAt_eq leftRoot, both.sizeAt_eq rightRoot]
    split
    · rename_i smaller
      exact ⟨by simp [apart], _, both.link apart leftRoot rightRoot smaller⟩
    · rename_i larger
      exact ⟨by simp [apart], _,
        both.link (Ne.symm apart) rightRoot leftRoot (Nat.le_of_not_le larger)⟩

end Forest

end DisjointSets

end GrammarReach
