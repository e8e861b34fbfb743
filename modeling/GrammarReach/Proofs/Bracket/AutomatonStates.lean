import GrammarReach.Proofs.Bracket.AutomatonRuns

/-!
# Automata over the same ids

A taint automaton has a state for each place in its list of ids, so the order of the ids
decides which number stands for which open bracket.  Two automata over the same ids simulate
each other: states that have the same bracket open take the same steps.
-/

namespace GrammarReach

namespace BracketAutomaton

/-- Both automata check the same family for the same ids, listed in any order. -/
structure Reordered (automaton other : BracketAutomaton) : Prop where
  analysis : automaton.analysis = other.analysis
  family : automaton.family = other.family
  mem_ids : ∀ id, id ∈ automaton.ids ↔ id ∈ other.ids

private theorem pending_cases (automaton : BracketAutomaton) (id : Nat) :
    (id ∉ automaton.ids ∧ automaton.pending id = 0) ∨
      ∃ place, automaton.ids[place]? = some id ∧ automaton.pending id = place + 1 := by
  have general : ∀ (ids : List Nat) (offset state : Nat),
      (id ∉ ids ∧ (ids.zipIdx offset).foldl
        (fun state (item : Nat × Nat) => if item.1 = id then item.2 + 1 else state) state =
          state) ∨
      ∃ place, ids[place]? = some id ∧ (ids.zipIdx offset).foldl
        (fun state (item : Nat × Nat) => if item.1 = id then item.2 + 1 else state) state =
          offset + place + 1 := by
    intro ids
    induction ids with
    | nil => exact fun _ _ => Or.inl ⟨List.not_mem_nil, rfl⟩
    | cons first ids induction =>
        intro offset state
        rw [List.zipIdx_cons, List.foldl_cons]
        rcases induction (offset + 1) (if first = id then offset + 1 else state) with
          ⟨unknown, same⟩ | ⟨place, found, same⟩
        · rw [same]
          by_cases isFirst : first = id
          · exact Or.inr ⟨0, by simp [isFirst], by simp [isFirst]⟩
          · exact Or.inl ⟨by simp [unknown, Ne.symm isFirst], by simp [isFirst]⟩
        · refine Or.inr ⟨place + 1, by simpa using found, ?_⟩
          rw [same]
          omega
  simpa [pending] using general automaton.ids 0 0

section Pending

variable {automaton : BracketAutomaton} {id : Nat}

private theorem pending_of_unknown (unknown : id ∉ automaton.ids) : automaton.pending id = 0 := by
  rcases automaton.pending_cases id with ⟨_, same⟩ | ⟨place, found, _⟩
  · exact same
  · exact absurd (List.mem_of_getElem? found) unknown

theorem pending_pos (known : id ∈ automaton.ids) : 0 < automaton.pending id := by
  rcases automaton.pending_cases id with ⟨unknown, _⟩ | ⟨place, _, same⟩
  · exact absurd known unknown
  · omega

theorem pending_injective {other : Nat} (known : id ∈ automaton.ids)
    (same : automaton.pending id = automaton.pending other) : id = other := by
  rcases automaton.pending_cases id with ⟨unknown, _⟩ | ⟨place, found, placed⟩
  · exact absurd known unknown
  · rcases automaton.pending_cases other with ⟨_, balanced⟩ | ⟨otherPlace, otherFound, otherPlaced⟩
    · omega
    · have samePlace : place = otherPlace := by omega
      rw [samePlace, otherFound] at found
      exact (Option.some.inj found).symm

end Pending

/-- The states stand for each other: both are balanced, have the same id open, or have lost
count. -/
inductive Corresponds (automaton other : BracketAutomaton) (state otherState : Nat) : Prop where
  | balanced : state = 0 → otherState = 0 → Corresponds automaton other state otherState
  | pending (id : Nat) : id ∈ automaton.ids → state = automaton.pending id →
      otherState = other.pending id → Corresponds automaton other state otherState
  | lost : state = automaton.overflow → otherState = other.overflow →
      Corresponds automaton other state otherState

section Taint

variable {automaton other : BracketAutomaton} {state otherState : Nat}

theorem Reordered.taint (reordered : automaton.Reordered other)
    (taint : automaton.analysis = .taint) : other.analysis = .taint :=
  reordered.analysis.symm.trans taint

private theorem corresponds_pending (reordered : automaton.Reordered other) (id : Nat) :
    Corresponds automaton other (automaton.pending id) (other.pending id) := by
  by_cases known : id ∈ automaton.ids
  · exact .pending id known rfl rfl
  · exact .balanced (pending_of_unknown known)
      (pending_of_unknown fun member => known ((reordered.mem_ids id).mpr member))

private theorem Corresponds.zero (corresponds : Corresponds automaton other state otherState)
    (taint : automaton.analysis = .taint) (balanced : state = 0) : otherState = 0 := by
  have overflow := overflow_of_taint taint
  cases corresponds with
  | balanced _ same => exact same
  | pending id known same _ =>
      have positive := pending_pos known
      omega
  | lost same _ => omega

private theorem Corresponds.eq_pending
    (corresponds : Corresponds automaton other state otherState)
    (taint : automaton.analysis = .taint) (reordered : automaton.Reordered other) {id : Nat}
    (opened : state = automaton.pending id) : otherState = other.pending id := by
  have overflow := overflow_of_taint taint
  have small := automaton.pending_le id
  by_cases known : id ∈ automaton.ids
  · have positive := pending_pos known
    cases corresponds with
    | balanced zero _ => omega
    | pending otherId _ same otherSame =>
        rw [pending_injective known (opened.symm.trans same)]
        exact otherSame
    | lost same _ => omega
  · have unknown : id ∉ other.ids := fun member => known ((reordered.mem_ids id).mpr member)
    rw [pending_of_unknown unknown]
    exact corresponds.zero taint (opened.trans (pending_of_unknown known))

private theorem Corresponds.eq_overflow
    (corresponds : Corresponds automaton other state otherState)
    (taint : automaton.analysis = .taint) (isLost : state = automaton.overflow) :
    otherState = other.overflow := by
  have overflow := overflow_of_taint taint
  cases corresponds with
  | balanced same _ => omega
  | pending id _ same _ =>
      have small := automaton.pending_le id
      omega
  | lost _ same => exact same

private theorem Corresponds.lt_states (corresponds : Corresponds automaton other state otherState)
    (otherTaint : other.analysis = .taint) : otherState < other.states := by
  have states := states_of_taint otherTaint
  have overflow := overflow_of_taint otherTaint
  cases corresponds with
  | balanced _ same => omega
  | pending id _ _ same =>
      have small := other.pending_le id
      omega
  | lost _ same => omega

private theorem Corresponds.pos (corresponds : Corresponds automaton other state otherState)
    (taint : automaton.analysis = .taint) (reordered : automaton.Reordered other)
    (positive : 0 < state) : 0 < otherState := by
  have overflow := overflow_of_taint (reordered.taint taint)
  cases corresponds with
  | balanced zero _ => omega
  | pending id known _ same =>
      have pending := pending_pos ((reordered.mem_ids id).mp known)
      omega
  | lost _ same => omega

/-! ## Steps -/

section Steps

variable (corresponds : Corresponds automaton other state otherState)
  (taint : automaton.analysis = .taint) (reordered : automaton.Reordered other)

include corresponds taint reordered

private theorem Corresponds.open_step {id next : Nat}
    (move : (state, next) ∈ automaton.openMoves id) :
    ∃ otherNext, (otherState, otherNext) ∈ other.openMoves id ∧
      Corresponds automaton other next otherNext := by
  have otherTaint := reordered.taint taint
  rcases (mem_openMoves taint).mp move with ⟨before, _, same⟩ | same
  · cases same
    have positive := corresponds.pos taint reordered (Nat.succ_pos before)
    have small := corresponds.lt_states otherTaint
    have states := states_of_taint otherTaint
    have overflow := overflow_of_taint otherTaint
    obtain ⟨otherBefore, rfl⟩ := Nat.exists_eq_succ_of_ne_zero (Nat.ne_of_gt positive)
    exact ⟨other.overflow, (mem_openMoves otherTaint).mpr (Or.inl ⟨otherBefore, by omega, rfl⟩),
      .lost rfl rfl⟩
  · cases same
    rw [corresponds.zero taint rfl]
    exact ⟨other.pending id, (mem_openMoves otherTaint).mpr (Or.inr rfl),
      corresponds_pending reordered id⟩

private theorem Corresponds.close_step {id next : Nat}
    (move : (state, next) ∈ automaton.closeMoves id) :
    ∃ otherNext, (otherState, otherNext) ∈ other.closeMoves id ∧
      Corresponds automaton other next otherNext := by
  have otherTaint := reordered.taint taint
  rcases (mem_closeMoves taint).mp move with same | same
  · cases same
    rw [corresponds.eq_pending taint reordered rfl]
    exact ⟨0, (mem_closeMoves otherTaint).mpr (Or.inl rfl), .balanced rfl rfl⟩
  · cases same
    rw [corresponds.eq_overflow taint rfl]
    exact ⟨other.overflow, (mem_closeMoves otherTaint).mpr (Or.inr rfl), .lost rfl rfl⟩

private theorem Corresponds.other_step {next : Nat}
    (move : (state, next) ∈ automaton.otherMoves) :
    ∃ otherNext, (otherState, otherNext) ∈ other.otherMoves ∧
      Corresponds automaton other next otherNext := by
  have otherTaint := reordered.taint taint
  obtain ⟨same, _, pair⟩ := (mem_otherMoves taint).mp move
  cases pair
  exact ⟨otherState, (mem_otherMoves otherTaint).mpr
    ⟨otherState, corresponds.lt_states otherTaint, rfl⟩, corresponds⟩

private theorem Corresponds.movesFor_step {bracket : Option PassingBracket} {next : Nat}
    (move : (state, next) ∈ automaton.movesFor bracket) :
    ∃ otherNext, (otherState, otherNext) ∈ other.movesFor bracket ∧
      Corresponds automaton other next otherNext := by
  rcases bracket with _ | ⟨id, _ | _⟩
  · exact corresponds.other_step taint reordered move
  · exact corresponds.close_step taint reordered move
  · exact corresponds.open_step taint reordered move

private theorem Corresponds.step {edge : Edge} {next : Nat} {label : Label}
    (copy : ((state, next), label) ∈ automaton.copies edge) :
    ∃ otherNext, ((otherState, otherNext), label) ∈ other.copies edge ∧
      Corresponds automaton other next otherNext := by
  obtain ⟨move, isShown⟩ := mem_copies.mp copy
  have sameShown : label = other.shown edge.label := by
    rw [show label = automaton.shown edge.label from isShown, shown, shown, reordered.family]
  rw [reordered.family] at move
  obtain ⟨otherNext, otherMove, after⟩ := corresponds.movesFor_step taint reordered move
  exact ⟨otherNext, mem_copies.mpr ⟨otherMove, sameShown⟩, after⟩

end Steps

private theorem exists_run_of_taint (taint : automaton.analysis = .taint)
    (reordered : automaton.Reordered other) {path : List Edge} {word : List Label} {last : Nat}
    (run : LayeredGraph.Run automaton.copies state path word last) :
    ∀ {otherState}, Corresponds automaton other state otherState →
      ∃ otherLast, LayeredGraph.Run other.copies otherState path word otherLast ∧
        Corresponds automaton other last otherLast := by
  induction run with
  | nil layer => exact fun corresponds => ⟨_, .nil _, corresponds⟩
  | cons copy _ induction =>
      intro otherState corresponds
      obtain ⟨next, otherCopy, after⟩ := corresponds.step taint reordered copy
      obtain ⟨otherLast, rest, ends⟩ := induction after
      exact ⟨otherLast, .cons otherCopy rest, ends⟩

private theorem Corresponds.accepts (corresponds : Corresponds automaton other state otherState)
    (taint : automaton.analysis = .taint)
    (reordered : automaton.Reordered other)
    (accepted : BracketAutomaton.accepts automaton.analysis automaton.states state = true) :
    BracketAutomaton.accepts other.analysis other.states otherState = true := by
  apply (accepts_iff_of_taint (reordered.taint taint)).mpr
  rcases (accepts_iff_of_taint taint).mp accepted with balanced | lost
  · exact Or.inl (corresponds.zero taint balanced)
  · exact Or.inr (corresponds.eq_overflow taint lost)

end Taint

/-- Whatever one automaton accepts, an automaton over the same ids accepts too. -/
theorem Reordered.exists_run {automaton other : BracketAutomaton}
    (reordered : automaton.Reordered other) {path : List Edge} {word : List Label} {last : Nat}
    (run : LayeredGraph.Run automaton.copies 0 path word last)
    (accepted : accepts automaton.analysis automaton.states last = true) :
    ∃ otherLast, LayeredGraph.Run other.copies 0 path word otherLast ∧
      accepts other.analysis other.states otherLast = true := by
  cases analysis : automaton.analysis with
  | taint =>
      obtain ⟨otherLast, otherRun, ends⟩ :=
        exists_run_of_taint analysis reordered run (.balanced rfl rfl)
      exact ⟨otherLast, otherRun, ends.accepts analysis reordered accepted⟩
  | valueFlow =>
      have otherAnalysis := reordered.analysis.symm.trans analysis
      have sameStates : automaton.states = other.states := by
        simp only [states, analysis, otherAnalysis]
      have sameCopies : automaton.copies = other.copies := by
        funext edge
        simp only [copies, moves, openMoves, closeMoves, otherMoves, analysis, otherAnalysis,
          reordered.family]
      rw [← sameCopies, ← sameStates, ← reordered.analysis]
      exact ⟨last, run, accepted⟩

end BracketAutomaton

end GrammarReach
