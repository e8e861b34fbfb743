import GrammarReach.Proofs.Container.Partitions
import Mathlib.Data.Nat.Log

/-!
# Lengths of searches

Every step to a parent climbs at least one rank, and below a root of rank `r` there are at
least `2 ^ r` elements.  So no element is more steps below its root than the logarithm of the
size of its class, and both loops of a search end within that many rounds: the one that climbs
to the root and the one that shortens the way.
-/

namespace GrammarReach

namespace DisjointSets

variable {α : Type} [Ord α]

/-- The element is the given number of steps to parents below a root. -/
inductive StepsTo (sets : DisjointSets α) (top : α) : Nat → α → Prop where
  | root (own : sets.parents[top]? = some top) : StepsTo sets top 0 top
  | step {steps : Nat} {element above : α} (isParent : sets.parents[element]? = some above)
      (apart : above ≠ element) (later : StepsTo sets top steps above) :
      StepsTo sets top (steps + 1) element

section Loops

variable [DecidableEq α]

/-- The loop that goes from parent to parent until it stands at a root.  It gives up when it
would need more rounds. -/
def climb (sets : DisjointSets α) : Nat → α → Option α
  | 0, here => if sets.parents.getD here here = here then some here else none
  | rounds + 1, here =>
      let above := sets.parents.getD here here
      if above = here then some here else climb sets rounds above

/-- The loop that hangs all elements on the way to a root directly below it.  It gives up when
it would need more rounds, and where an element has no parent. -/
def shorten (sets : DisjointSets α) (top : α) : Nat → α → Option (DisjointSets α)
  | 0, here => if here = top then some sets else none
  | rounds + 1, here =>
      if here = top then some sets
      else
        match sets.parents[here]? with
        | none => none
        | some above =>
            shorten { sets with parents := sets.parents.insert here top } top rounds above

/-- A search whose loops have the given number of rounds. -/
def searchWithin (sets : DisjointSets α) (rounds : Nat) (element : α) :
    Option (Option α × DisjointSets α) :=
  match sets.parents[element]? with
  | none => some (none, sets)
  | some above =>
      match sets.climb rounds above with
      | none => none
      | some top => (sets.shorten top rounds element).map fun shortened => (some top, shortened)

end Loops

/-- The same elements have the same parents and sizes. -/
structure Alike (sets others : DisjointSets α) : Prop where
  parents : ∀ element : α, sets.parents[element]? = others.parents[element]?
  sizes : ∀ element : α, sets.sizes[element]? = others.sizes[element]?

namespace Forest

variable {sets others : DisjointSets α} {root : α → Option α} {rank : α → Nat}
  {element here top : α}

/-! ## Steps -/

theorem rank_le_log (forest : Forest sets root rank) (found : root element = some top) :
    rank top ≤ Nat.log 2 (membersOf root top).ncard :=
  Nat.le_log_of_pow_le (by decide) (forest.filled top (forest.idempotent element top found))

variable [Std.TransOrd α]

theorem own_or_parent (forest : Forest sets root rank) (found : root element = some top) :
    element = top ∧ sets.parents[element]? = some element ∨
      ∃ above, sets.parents[element]? = some above ∧ above ≠ element ∧ element ≠ top ∧
        root above = some top ∧ rank element < rank above ∧ rank above ≤ rank top := by
  obtain ⟨above, isParent⟩ : ∃ above, sets.parents[element]? = some above :=
    ⟨_, Std.TreeMap.getElem?_eq_some_getElem (forest.mem_of_root found)⟩
  have onward : root above = some top := (forest.parent element above isParent).symm.trans found
  by_cases atRoot : element = top
  · subst atRoot
    exact .inl ⟨rfl, (forest.own element).mpr found⟩
  · have apart : above ≠ element := by
      rintro rfl
      have itself := (forest.own above).mp isParent
      exact atRoot (Option.some.inj (itself.symm.trans found))
    exact .inr ⟨above, isParent, apart, atRoot, onward, forest.climbs element above isParent apart,
      forest.bounded above top onward⟩

theorem exists_stepsTo (forest : Forest sets root rank) (found : root element = some top) :
    ∃ steps, sets.StepsTo top steps element ∧ rank element + steps ≤ rank top := by
  generalize height : rank top - rank element = bound
  induction bound using Nat.strong_induction_on generalizing element with
  | _ bound induction =>
      rcases forest.own_or_parent found with
        ⟨rfl, own⟩ | ⟨above, isParent, apart, _, onward, climbs, bounded⟩
      · exact ⟨0, .root own, le_rfl⟩
      · obtain ⟨steps, later, enough⟩ := induction _ (by omega) onward rfl
        exact ⟨steps + 1, .step isParent apart later, by omega⟩

/-! ## Loops -/

variable [DecidableEq α]

theorem climb_eq (forest : Forest sets root rank) (found : root here = some top) {rounds : Nat}
    (enough : rank top ≤ rank here + rounds) : sets.climb rounds here = some top := by
  induction rounds generalizing here with
  | zero =>
      rcases forest.own_or_parent found with
        ⟨rfl, own⟩ | ⟨above, isParent, apart, _, onward, climbs, bounded⟩
      · simp [climb, Std.TreeMap.getD_eq_getD_getElem?, own]
      · omega
  | succ rounds induction =>
      rcases forest.own_or_parent found with
        ⟨rfl, own⟩ | ⟨above, isParent, apart, _, onward, climbs, bounded⟩
      · simp [climb, Std.TreeMap.getD_eq_getD_getElem?, own]
      · have ended := induction onward (by omega)
        simpa [climb, Std.TreeMap.getD_eq_getD_getElem?, isParent, apart] using ended

omit [Std.TransOrd α] in
theorem rank_le_of_mem_way (forest : Forest sets root rank) (bound : Nat) :
    ∀ other ∈ sets.way bound element, rank element ≤ rank other := by
  induction bound generalizing element with
  | zero => simp [way]
  | succ bound induction =>
      unfold way
      cases isParent : sets.parents[element]? with
      | none => simp
      | some above =>
          simp only
          split
          · simp
          · rename_i apart
            intro other member
            rcases List.mem_cons.mp member with rfl | later
            · exact le_rfl
            · have climbs := forest.climbs element above isParent apart
              exact climbs.le.trans (induction other later)

omit [Std.TransOrd α] in
theorem way_congr {bound : Nat}
    (same : ∀ other ∈ sets.way bound element, others.parents[other]? = sets.parents[other]?) :
    others.way bound element = sets.way bound element := by
  induction bound generalizing element with
  | zero => rfl
  | succ bound induction =>
      have first : others.parents[element]? = sets.parents[element]? := by
        refine same element ?_
        unfold way
        cases sets.parents[element]? with
        | none => simp
        | some above =>
            simp only
            split <;> simp
      unfold way at same ⊢
      rw [first]
      cases isParent : sets.parents[element]? with
      | none => rfl
      | some above =>
          simp only [isParent] at same ⊢
          split
          · rfl
          · rename_i apart
            rw [if_neg apart] at same
            rw [induction fun other member => same other (.tail _ member)]

variable [Std.LawfulEqOrd α]

omit [Std.TransOrd α] [Std.LawfulEqOrd α] in
private theorem way_of_own (own : sets.parents[top]? = some top) (bound : Nat) :
    sets.way bound top = [top] := by
  cases bound with
  | zero => rfl
  | succ bound => simp [way, own]

private theorem shorten_of_own (own : sets.parents[top]? = some top) (rounds bound : Nat) :
    ∃ shortened, sets.shorten top rounds top = some shortened ∧
      Alike shortened (sets.hang (sets.way bound top) top) := by
  refine ⟨sets, by cases rounds <;> simp [shorten], fun other => ?_, fun _ => rfl⟩
  rw [way_of_own own]
  by_cases same : other = top
  · simp [DisjointSets.hang, same, own]
  · simp [DisjointSets.hang, Std.TreeMap.getElem?_insert, Ne.symm same]

/-- Shortening hangs the elements on the way below the root when there are as many rounds as
ranks to climb. -/
theorem shorten_eq (forest : Forest sets root rank) (found : root here = some top)
    (rounds bound : Nat) (enough : rank top ≤ rank here + rounds)
    (long : rank top ≤ rank here + bound) :
    ∃ shortened, sets.shorten top rounds here = some shortened ∧
      Alike shortened (sets.hang (sets.way bound here) top) := by
  induction rounds generalizing sets here bound with
  | zero =>
      rcases forest.own_or_parent found with
        ⟨rfl, own⟩ | ⟨above, isParent, apart, _, onward, climbs, _⟩
      · exact shorten_of_own own 0 bound
      · omega
  | succ rounds induction =>
      rcases forest.own_or_parent found with
        ⟨rfl, own⟩ | ⟨above, isParent, apart, notTop, onward, climbs, _⟩
      · exact shorten_of_own own (rounds + 1) bound
      · obtain ⟨bound, rfl⟩ : ∃ shorter, bound = shorter + 1 := ⟨bound - 1, by omega⟩
        have nextForest : Forest (sets.hang [here] top) root rank :=
          forest.hang (by simpa using found)
        obtain ⟨shortened, ended, alike⟩ :=
          induction nextForest onward bound (by omega) (by omega)
        have sameWay : (sets.hang [here] top).way bound above = sets.way bound above := by
          refine way_congr fun other member => ?_
          have higher := forest.rank_le_of_mem_way bound other member
          have different : other ≠ here := by
            rintro rfl
            omega
          simp [DisjointSets.hang, Std.TreeMap.getElem?_insert, Ne.symm different]
        have wholeWay : sets.way (bound + 1) here = here :: sets.way bound above := by
          simp [way, isParent, apart]
        rw [sameWay] at alike
        rw [wholeWay]
        refine ⟨shortened, ?_, alike⟩
        rw [shorten, if_neg notTop, isParent]
        exact ended

/-- With as many rounds as the rank of the root, both loops of a search end, and the search
does what it does without a bound. -/
theorem searchWithin_eq (forest : Forest sets root rank) (element : α) {rounds : Nat}
    (enough : ∀ top, root element = some top → rank top ≤ rounds) :
    ∃ shortened, sets.searchWithin rounds element = some ((sets.find element).1, shortened) ∧
      Alike shortened (sets.find element).2 := by
  unfold DisjointSets.find searchWithin
  rw [forest.root?_eq]
  cases found : root element with
  | none =>
      have unknown := (forest.known element).mp found
      rw [Std.TreeMap.getElem?_eq_none unknown]
      exact ⟨sets, rfl, fun _ => rfl, fun _ => rfl⟩
  | some top =>
      have few := enough top found
      have size := forest.rank_lt_size (forest.idempotent element top found)
      obtain ⟨above, isParent⟩ : ∃ above, sets.parents[element]? = some above :=
        ⟨_, Std.TreeMap.getElem?_eq_some_getElem (forest.mem_of_root found)⟩
      have onward : root above = some top :=
        (forest.parent element above isParent).symm.trans found
      have climbed : sets.climb rounds above = some top := forest.climb_eq onward (by omega)
      obtain ⟨shortened, ended, alike⟩ :=
        forest.shorten_eq found rounds sets.size (by omega) (by omega)
      refine ⟨shortened, ?_, alike⟩
      simp only [isParent, climbed, ended, Option.map_some]

end Forest

/-! ## Searches after calls -/

variable [DecidableEq α] [Std.TransOrd α] [Std.LawfulEqOrd α]

/-- Every element is at most as many steps below its root as the logarithm of the size of its
class, and searches whose loops have that many rounds are whole searches. -/
structure ShortSearches (calls : List (Call α)) (sets : DisjointSets α) : Prop where
  steps : ∀ element ∈ mentions calls, ∃ top steps, (sets.find element).1 = some top ∧
    sets.StepsTo top steps element ∧ steps ≤ Nat.log 2 (classOf calls element).ncard
  rounds : ∀ element, ∃ shortened,
    sets.searchWithin (Nat.log 2 (classOf calls element).ncard) element =
      some ((sets.find element).1, shortened) ∧
    Alike shortened (sets.find element).2

/-- After any calls the trees are as flat as the sizes of the classes allow. -/
theorem shortSearches_after (calls : List (Call α)) : ShortSearches calls (after calls) := by
  obtain ⟨root, rank, forest, tells⟩ := exists_forest_after calls
  have low : ∀ element top, root element = some top →
      rank top ≤ Nat.log 2 (classOf calls element).ncard := by
    intro element top found
    rw [← tells.membersOf_eq found]
    exact forest.rank_le_log found
  constructor
  · intro element mentioned
    obtain ⟨top, found⟩ := tells.root_of_mem mentioned
    obtain ⟨steps, stepsTo, climbed⟩ := forest.exists_stepsTo found
    have bounded := low element top found
    exact ⟨top, steps, (forest.find element).1.trans found, stepsTo, by omega⟩
  · intro element
    exact forest.searchWithin_eq element (low element)

/-- Two pairs that are joined at their second elements. -/
def twoPairs : List (Call Nat) :=
  [.union 1 2, .union 3 4, .union 2 4]

/-- The last element stays two steps below its root, as many as a class of four allows. -/
theorem shortSearches_after_twoPairs :
    4 ∈ mentions twoPairs ∧ Nat.log 2 4 = 2 ∧
      ∃ top steps, ((after twoPairs).find 4).1 = some top ∧ (after twoPairs).StepsTo top steps 4 ∧
        steps ≤ Nat.log 2 (classOf twoPairs 4).ncard := by
  have mentioned : 4 ∈ mentions twoPairs := by decide
  exact ⟨mentioned, by decide, (shortSearches_after twoPairs).steps 4 mentioned⟩

end DisjointSets

end GrammarReach
