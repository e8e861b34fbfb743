import GrammarReach.Proofs.Container.Forests
import Mathlib.Data.List.Dedup
import Mathlib.Data.List.Sort
import Mathlib.Logic.Relation

/-!
# Partitions by calls

Whatever calls are made on disjoint sets, the elements that were mentioned are parted into
the classes that the joined pairs generate.  The roots of the elements determine all answers
and the roots after the call, so calls that keep the roots change no later answer.
-/

namespace GrammarReach

namespace DisjointSets

/-- A call on disjoint sets. -/
inductive Call (α : Type) where
  | insert (element : α)
  | union (left right : α)
  | find (element : α)
  | groups
  | contains (element : α)
  | size
deriving Repr, DecidableEq

/-- The answer to a call. -/
inductive Answer (α : Type) where
  | done
  | holds (holds : Bool)
  | root (root : Option α)
  | listed (groups : List (α × List α))
  | counted (number : Nat)
deriving Repr, DecidableEq

variable {α : Type}

namespace Call

/-- The elements that a call puts into a set. -/
def elements : Call α → List α
  | insert element => [element]
  | union left right => [left, right]
  | _ => []

variable [DecidableEq α]

/-- The roots after a call. -/
noncomputable def roots (root : α → Option α) : Call α → α → Option α
  | insert element => addedRoots root element
  | union left right => joinedRoots root left right
  | _ => root

/-- Makes a call. -/
def run [Ord α] (sets : DisjointSets α) : Call α → Answer α × DisjointSets α
  | insert element => (.done, sets.insert element)
  | union left right =>
      let (apart, sets) := sets.union left right
      (.holds apart, sets)
  | find element =>
      let (root, sets) := sets.find element
      (.root root, sets)
  | groups =>
      let (listed, sets) := sets.groups
      (.listed listed, sets)
  | contains element => (.holds (sets.contains element), sets)
  | size => (.counted sets.size, sets)

end Call

section Calls

variable [DecidableEq α] [Ord α]

/-- The disjoint sets after some calls, none made at first. -/
def after (calls : List (Call α)) : DisjointSets α :=
  calls.foldl (fun sets call => (call.run sets).2) .empty

/-- The answers to some calls, one after the other. -/
def answers : List (Call α) → DisjointSets α → List (Answer α)
  | [], _ => []
  | call :: calls, sets => (call.run sets).1 :: answers calls (call.run sets).2

end Calls

/-- The elements that some calls put into a set. -/
def mentions (calls : List (Call α)) : List α :=
  calls.flatMap Call.elements

/-- Two elements are the same or linked by pairs that some calls join. -/
def Joined (calls : List (Call α)) : α → α → Prop :=
  Relation.EqvGen fun left right => Call.union left right ∈ calls

/-- The elements that are joined with an element. -/
def classOf (calls : List (Call α)) (element : α) : Set α :=
  { other | Joined calls element other }

/-! ## Roots of classes -/

/-- Just the mentioned elements have a root, and the roots tell the classes apart. -/
structure Tells (calls : List (Call α)) (root : α → Option α) : Prop where
  known : ∀ element, root element = none ↔ element ∉ mentions calls
  related : ∀ element top, root element = some top → Joined calls element top
  shared : ∀ left right, Call.union left right ∈ calls → root left = root right

section Telling

variable {calls : List (Call α)} {root : α → Option α} {element other top left right : α}

theorem joined_congr {others : List (Call α)}
    (same : ∀ left right, Call.union left right ∈ calls ↔ Call.union left right ∈ others) :
    Joined calls = Joined others := by
  simp only [Joined, same]

theorem joined_insert : Joined (calls ++ [.insert element]) = Joined calls :=
  joined_congr (by simp)

theorem Joined.mono {others : List (Call α)} (sub : calls ⊆ others)
    (joined : Joined calls element other) : Joined others element other :=
  Relation.EqvGen.mono (fun _ _ member => sub member) element other joined

namespace Tells

theorem root_of_mem (tells : Tells calls root) (mentioned : element ∈ mentions calls) :
    ∃ top, root element = some top :=
  Option.ne_none_iff_exists'.mp fun unknown => (tells.known element).mp unknown mentioned

theorem root_eq_of_joined (tells : Tells calls root) (joined : Joined calls element other) :
    root element = root other := by
  induction joined with
  | rel left right member => exact tells.shared left right member
  | refl element => rfl
  | symm left right _ induction => exact induction.symm
  | trans first middle last _ _ before behind => exact before.trans behind

theorem root_eq_iff (tells : Tells calls root) (found : root element = some top) :
    root other = some top ↔ Joined calls element other := by
  constructor
  · intro same
    exact .trans _ _ _ (tells.related element top found) (.symm _ _ (tells.related other top same))
  · intro joined
    rw [← tells.root_eq_of_joined joined, found]

theorem membersOf_eq (tells : Tells calls root) (found : root element = some top) :
    membersOf root top = classOf calls element :=
  Set.ext fun _ => tells.root_eq_iff found

theorem joined_topOf (tells : Tells calls root) (element : α) :
    Joined calls element (topOf root element) := by
  cases found : root element with
  | none =>
      rw [topOf, found]
      exact .refl element
  | some top =>
      rw [topOf, found]
      exact tells.related element top found

theorem nil : Tells ([] : List (Call α)) fun _ => none where
  known := by simp [mentions]
  related := by simp
  shared := by simp

variable [DecidableEq α]

theorem insert (tells : Tells calls root) (element : α) :
    Tells (calls ++ [.insert element]) (addedRoots root element) where
  known other := by
    rw [addedRoots_eq_none, tells.known]
    simp [mentions, Call.elements, and_comm]
  related other top found := by
    rw [joined_insert]
    cases unknown : root element with
    | none =>
        rcases (addedRoots_eq_some unknown).mp found with ⟨rfl, rfl⟩ | before
        · exact .refl top
        · exact tells.related other top before
    | some known =>
        rw [addedRoots_of_some unknown] at found
        exact tells.related other top found
  shared left right member := by
    have before : Call.union left right ∈ calls := by simpa using member
    have mentioned : left ∈ mentions calls :=
      List.mem_flatMap.mpr ⟨_, before, List.mem_cons_self⟩
    obtain ⟨top, found⟩ := tells.root_of_mem mentioned
    rw [addedRoots_of_known found,
      addedRoots_of_known ((tells.shared left right before).symm.trans found)]

theorem both (tells : Tells calls root) (left right : α) :
    Tells (calls ++ [.insert left] ++ [.insert right]) (bothRoots root left right) :=
  (tells.insert left).insert right

theorem union (tells : Tells calls root) (left right : α) :
    Tells (calls ++ [.union left right]) (joinedRoots root left right) where
  known other := by
    rw [joinedRoots_eq_none, (tells.both left right).known]
    simp [mentions, Call.elements]
  related other top found := by
    have before : ∀ first last, Joined calls first last →
        Joined (calls ++ [.union left right]) first last := fun _ _ joined =>
      joined.mono (List.subset_append_left _ _)
    have old : ∀ top, bothRoots root left right other = some top →
        Joined (calls ++ [.union left right]) other top := fun top found =>
      before other top (by simpa only [joined_insert] using (tells.both left right).related _ _ found)
    have pair : Joined (calls ++ [.union left right]) (topOf root left) (topOf root right) :=
      .trans _ _ _ (.symm _ _ (before _ _ (tells.joined_topOf left)))
        (.trans _ _ _ (.rel _ _ (by simp)) (before _ _ (tells.joined_topOf right)))
    rcases joinedRoots_eq_some found with same | ⟨first, rfl⟩ | ⟨second, rfl⟩
    · exact old top same
    · exact .trans _ _ _ (old _ first) pair
    · exact .trans _ _ _ (old _ second) (.symm _ _ pair)
  shared first last member := by
    rcases List.mem_append.mp member with earlier | new
    · exact joinedRoots_congr ((tells.both left right).shared first last (by simp [earlier]))
    · cases List.mem_singleton.mp new
      exact (joinedRoots_left_right root left right).2.symm

/-- After any call the roots tell the classes of the calls that were made. -/
theorem run (tells : Tells calls root) (call : Call α) :
    Tells (calls ++ [call]) (call.roots root) := by
  have kept : call.elements = [] → Tells (calls ++ [call]) root := by
    intro nothing
    have unions : ∀ left right, Call.union left right ∈ calls ++ [call] ↔
        Call.union left right ∈ calls := by
      intro left right
      simp only [List.mem_append, List.mem_singleton, or_iff_left_iff_imp]
      rintro rfl
      simp [Call.elements] at nothing
    exact {
      known := by simpa [mentions, nothing] using tells.known
      related := by simpa only [joined_congr unions] using tells.related
      shared := by simpa only [unions] using tells.shared }
  cases call with
  | insert element => exact tells.insert element
  | union left right => exact tells.union left right
  | find element => exact kept rfl
  | groups => exact kept rfl
  | contains element => exact kept rfl
  | size => exact kept rfl

end Tells

end Telling

/-! ## Answers -/

variable [Ord α] [Std.TransOrd α] [Std.LawfulEqOrd α] {calls : List (Call α)}
  {sets others : DisjointSets α} {root : α → Option α} {rank otherRank : α → Nat}
  {element top : α}

theorem Forest.keys_eq (forest : Forest sets root rank) (other : Forest others root otherRank) :
    sets.parents.keys = others.parents.keys := by
  have : Std.Irrefl fun left right : α => compare left right = .lt := ⟨by simp⟩
  have : Std.Antisymm fun left right : α => compare left right = .lt :=
    ⟨fun left right before after => by
      rw [Std.OrientedCmp.gt_of_lt before] at after
      cases after⟩
  refine List.Pairwise.eq_of_mem_iff Std.TreeMap.ordered_keys Std.TreeMap.ordered_keys
    fun element => ?_
  rw [Std.TreeMap.mem_keys, Std.TreeMap.mem_keys, ← not_iff_not, ← forest.known, other.known]

variable [DecidableEq α]

theorem Forest.run (forest : Forest sets root rank) (call : Call α) :
    ∃ rank, Forest (call.run sets).2 (call.roots root) rank := by
  cases call with
  | insert element => exact ⟨rank, forest.insert element⟩
  | union left right => exact (forest.union left right).2
  | find element => exact ⟨rank, (forest.find element).2⟩
  | groups => exact ⟨rank, forest.groups.2⟩
  | contains element => exact ⟨rank, forest⟩
  | size => exact ⟨rank, forest⟩

theorem Forest.answer_eq (forest : Forest sets root rank) (other : Forest others root otherRank)
    (call : Call α) : (call.run sets).1 = (call.run others).1 := by
  have keys := forest.keys_eq other
  cases call with
  | insert element => rfl
  | union left right =>
      have same := (forest.union left right).1.trans (other.union left right).1.symm
      exact congrArg Answer.holds (Bool.eq_iff_iff.mpr same)
  | find element =>
      exact congrArg Answer.root ((forest.find element).1.trans (other.find element).1.symm)
  | groups =>
      refine congrArg Answer.listed (forest.groups.1.trans (.trans ?_ other.groups.1.symm))
      rw [keys]
  | contains element =>
      refine congrArg Answer.holds (Bool.eq_iff_iff.mpr ?_)
      rw [contains, contains, Std.TreeMap.contains_iff_mem, Std.TreeMap.contains_iff_mem,
        ← not_iff_not, ← forest.known, other.known]
  | size =>
      refine congrArg Answer.counted ?_
      rw [size, size, ← Std.TreeMap.length_keys, keys, Std.TreeMap.length_keys]

theorem Forest.answers_eq (forest : Forest sets root rank) (other : Forest others root otherRank)
    (calls : List (Call α)) : answers calls sets = answers calls others := by
  induction calls generalizing sets others root rank otherRank with
  | nil => rfl
  | cons call calls induction =>
      obtain ⟨_, next⟩ := forest.run call
      obtain ⟨_, otherNext⟩ := other.run call
      rw [answers, answers, forest.answer_eq other call, induction next otherNext]

theorem exists_forest_after (calls : List (Call α)) :
    ∃ root rank, Forest (after calls) root rank ∧ Tells calls root := by
  induction calls using List.reverseRecOn with
  | nil => exact ⟨_, _, .empty, .nil⟩
  | append_singleton calls call induction =>
      obtain ⟨root, rank, forest, tells⟩ := induction
      obtain ⟨next, grown⟩ := forest.run call
      refine ⟨call.roots root, next, ?_, tells.run call⟩
      rwa [after, List.foldl_append]

/-! ## Partitions -/

/-- The disjoint sets are the classes of some calls.  Elements that were never mentioned have
no root, all others have a member of their class, the same one for the whole class. -/
structure Partitions (calls : List (Call α)) (sets : DisjointSets α) : Prop where
  find_eq_none : ∀ element, (sets.find element).1 = none ↔ element ∉ mentions calls
  find_member : ∀ element top, (sets.find element).1 = some top →
    top ∈ mentions calls ∧ Joined calls element top
  find_eq_find : ∀ element ∈ mentions calls, ∀ other,
    (sets.find element).1 = (sets.find other).1 ↔ Joined calls element other
  /-- A union says whether its elements were in different classes. -/
  union_apart : ∀ left right, (sets.union left right).1 = true ↔ ¬ Joined calls left right
  /-- The larger class keeps its root, of two equally large ones the first. -/
  union_root : ∀ left right,
    let kept := if (classOf calls right).ncard ≤ (classOf calls left).ncard then left else right
    let top := ((sets.find kept).1).getD kept
    ((sets.union left right).2.find left).1 = some top ∧
      ((sets.union left right).2.find right).1 = some top
  sizes_eq : ∀ top, (sets.find top).1 = some top →
    sets.sizes[top]? = some (classOf calls top).ncard
  /-- No class is listed twice. -/
  groups_once : (sets.groups.1.map (·.1)).Pairwise fun left right => compare left right = .lt
  groups_member : ∀ top members, (top, members) ∈ sets.groups.1 →
    (sets.find top).1 = some top ∧
      members.Pairwise (fun left right => compare left right = .lt) ∧
      ∀ element, element ∈ members ↔ Joined calls top element
  groups_cover : ∀ element ∈ mentions calls, ∃ top members, (top, members) ∈ sets.groups.1 ∧
    (sets.find element).1 = some top ∧ element ∈ members
  size_eq : sets.size = (mentions calls).dedup.length
  find_keeps : ∀ element later, answers later (sets.find element).2 = answers later sets
  groups_keeps : ∀ later, answers later sets.groups.2 = answers later sets

private theorem union_root_of (forest : Forest sets root rank) (tells : Tells calls root)
    (left right : α) :
    let kept := if (classOf calls right).ncard ≤ (classOf calls left).ncard then left else right
    ((sets.union left right).2.find left).1 = some (topOf root kept) ∧
      ((sets.union left right).2.find right).1 = some (topOf root kept) := by
  obtain ⟨joinedRank, joined⟩ := (forest.union left right).2
  obtain ⟨chosen, same⟩ := joinedRoots_left_right root left right
  have both := tells.both left right
  have leftClass := both.membersOf_eq bothRoots_left
  have rightClass := both.membersOf_eq bothRoots_right
  simp only [classOf, joined_insert] at leftClass rightClass
  rw [leftClass, rightClass, ← apply_ite fun kept => some (topOf root kept)] at chosen
  rw [(joined.find left).1, (joined.find right).1, same, chosen]
  exact ⟨rfl, rfl⟩

theorem mem_groups (forest : Forest sets root rank) {members : List α} :
    (top, members) ∈ sets.groups.1 ↔ root top = some top ∧
      members = sets.parents.keys.filter fun element => root element = some top := by
  rw [forest.groups.1]
  simp only [List.mem_map, List.mem_filter, Prod.mk.injEq, decide_eq_true_eq]
  constructor
  · rintro ⟨other, ⟨_, isRoot⟩, rfl, rfl⟩
    exact ⟨isRoot, rfl⟩
  · rintro ⟨isRoot, rfl⟩
    exact ⟨top, ⟨Std.TreeMap.mem_keys.mpr (forest.mem_of_root isRoot), isRoot⟩, rfl, rfl⟩

theorem partitions_of (forest : Forest sets root rank) (tells : Tells calls root) :
    Partitions calls sets where
  find_eq_none element := by rw [(forest.find element).1, tells.known]
  find_member element top found := by
    rw [(forest.find element).1] at found
    refine ⟨?_, tells.related element top found⟩
    by_contra unknown
    rw [← tells.known, forest.idempotent element top found] at unknown
    cases unknown
  find_eq_find element mentioned other := by
    obtain ⟨top, found⟩ := tells.root_of_mem mentioned
    rw [(forest.find element).1, (forest.find other).1, found, eq_comm, tells.root_eq_iff found]
  union_apart left right := by
    have both : bothRoots root left right right = some (topOf root left) ↔ _ :=
      (tells.both left right).root_eq_iff bothRoots_left
    rw [bothRoots_right, joined_insert, joined_insert] at both
    rw [(forest.union left right).1, ← both, Option.some_inj, ne_comm]
  union_root left right := by
    have known : ∀ element, ((sets.find element).1).getD element = topOf root element := by
      intro element
      rw [(forest.find element).1, topOf]
    simpa only [known] using union_root_of forest tells left right
  sizes_eq top isRoot := by
    rw [(forest.find top).1] at isRoot
    rw [forest.counted top isRoot, tells.membersOf_eq isRoot]
  groups_once := by
    have roots : sets.groups.1.map (·.1) =
        sets.parents.keys.filter fun top => root top = some top := by
      rw [forest.groups.1, List.map_map]
      exact List.map_id _
    rw [roots]
    exact Std.TreeMap.ordered_keys.sublist List.filter_sublist
  groups_member top members listed := by
    obtain ⟨isRoot, rfl⟩ := (mem_groups forest).mp listed
    refine ⟨(forest.find top).1.trans isRoot,
      Std.TreeMap.ordered_keys.sublist List.filter_sublist, fun element => ?_⟩
    rw [← tells.root_eq_iff isRoot, List.mem_filter, decide_eq_true_eq, Std.TreeMap.mem_keys]
    exact and_iff_right_of_imp forest.mem_of_root
  groups_cover element mentioned := by
    obtain ⟨top, found⟩ := tells.root_of_mem mentioned
    refine ⟨top, _, (mem_groups forest).mpr ⟨forest.idempotent element top found, rfl⟩,
      (forest.find element).1.trans found, ?_⟩
    rw [List.mem_filter, decide_eq_true_eq, Std.TreeMap.mem_keys]
    exact ⟨forest.mem_of_root found, found⟩
  size_eq := by
    have members : ∀ element, element ∈ sets.parents.keys ↔ element ∈ (mentions calls).dedup := by
      intro element
      rw [Std.TreeMap.mem_keys, List.mem_dedup, ← not_iff_not, ← forest.known, tells.known]
    rw [size, ← Std.TreeMap.length_keys]
    exact ((List.perm_ext_iff_of_nodup Std.TreeMap.nodup_keys
      (List.nodup_dedup _)).mpr members).length_eq
  find_keeps element := (forest.find element).2.answers_eq forest
  groups_keeps := forest.groups.2.answers_eq forest

/-- After any calls the disjoint sets are the classes of the calls. -/
theorem partitions_after (calls : List (Call α)) : Partitions calls (after calls) := by
  obtain ⟨root, rank, forest, tells⟩ := exists_forest_after calls
  exact partitions_of forest tells

/-- Two pairs that are joined afterwards, with searches in between. -/
def pairedCalls : List (Call Nat) :=
  [.union 1 2, .union 3 4, .find 9, .insert 5, .groups, .union 2 4, .find 3]

theorem partitions_after_pairedCalls :
    Joined pairedCalls 3 2 ∧ ¬ Joined pairedCalls 3 5 ∧ (classOf pairedCalls 1).ncard = 4 ∧
      ((after pairedCalls).find 3).1 = some 1 ∧
      (after pairedCalls).groups.1 = [(1, [1, 2, 3, 4]), (5, [5])] := by
  have partitions := partitions_after pairedCalls
  have mentioned : 3 ∈ mentions pairedCalls := by decide
  have counted := partitions.sizes_eq 1 (by decide +kernel)
  refine ⟨(partitions.find_eq_find 3 mentioned 2).mp (by decide +kernel), fun joined => ?_, ?_,
    by decide +kernel, by decide +kernel⟩
  · exact absurd ((partitions.find_eq_find 3 mentioned 5).mpr joined) (by decide +kernel)
  · have stored : (after pairedCalls).sizes[1]? = some 4 := by decide +kernel
    exact Option.some.inj (counted.symm.trans stored)

end DisjointSets

end GrammarReach
