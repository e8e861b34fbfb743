import GrammarReach.Proofs.Saturation.Termination

/-!
# The order of acceptance

A run lists its answers in the order in which their derivations were accepted, and
what it accepts does not depend on whether it records where derivations came from.
-/

namespace GrammarReach

/-- The span of a one-segment derivation of the start nonterminal. -/
def Derivation.answer? (start : NonterminalId) (derivation : Derivation) : Option Span :=
  match derivation.segments with
  | [span] => if derivation.nonterminal = start then some span else none
  | _ => none

namespace RunState

variable {problem : Problem} {state : RunState}

/-! ## Answers in order -/

/-- The answers are those of the derivations taken, in the order of acceptance. -/
def ListsAnswers (problem : Problem) (state : RunState) : Prop :=
  state.spans.toList = (state.table.derivations.toList.take state.taken).filterMap
    (Derivation.answer? problem.program.start)

private theorem toList_spans_taking (derivation : Derivation) :
    (taking problem state derivation).spans.toList =
      state.spans.toList ++ (derivation.answer? problem.program.start).toList := by
  obtain ⟨nonterminal, segments⟩ := derivation
  match segments with
  | [] => simp [taking, noteAnswer, Derivation.answer?]
  | [span] =>
      by_cases same : nonterminal = problem.program.start
      · simp [taking, noteAnswer, Derivation.answer?, same]
      · simp [taking, noteAnswer, Derivation.answer?, same]
  | first :: second :: rest => simp [taking, noteAnswer, Derivation.answer?]

theorem ListsAnswers.mono {earlier later : RunState} (lists : earlier.ListsAnswers problem)
    (inside : earlier.taken ≤ earlier.table.size) (grows : earlier.Grows later) :
    later.ListsAnswers problem := by
  have sameTaken : later.table.derivations.toList.take earlier.taken =
      earlier.table.derivations.toList.take earlier.taken := by
    apply List.ext_getElem?
    intro id
    rw [List.getElem?_take, List.getElem?_take]
    by_cases below : id < earlier.taken
    · obtain ⟨derivation, found⟩ :=
        DerivationTable.exists_derivation?_of_lt (Nat.lt_of_lt_of_le below inside)
      have moved := grows.table id derivation found
      rw [if_pos below, if_pos below, Array.getElem?_toList, Array.getElem?_toList]
      exact moved.trans found.symm
    · rw [if_neg below, if_neg below]
  rw [ListsAnswers, grows.spans, grows.taken, sameTaken]
  exact lists

theorem ListsAnswers.advance (lists : state.ListsAnswers problem) {derivation : Derivation}
    (found : state.table.derivation? state.taken = some derivation) :
    (state.advance problem).ListsAnswers problem := by
  have inside := DerivationTable.lt_size_of_derivation? found
  have noted : (taking problem state derivation).ListsAnswers problem := by
    have next : state.table.derivations.toList[state.taken]? = some derivation := by
      rw [Array.getElem?_toList]
      exact found
    rw [ListsAnswers, toList_spans_taking, taking_table, taking_taken, lists,
      List.take_add_one, next, List.filterMap_append]
    cases answer : derivation.answer? problem.program.start with
    | none => simp [answer]
    | some span => simp [answer]
  rw [advance_eq found]
  refine noted.mono ?_ (foldl_offer_grows _ _ _)
  rw [taking_taken, taking_table]
  exact inside

theorem ListsAnswers.iterate (lists : state.ListsAnswers problem) (steps : Nat) :
    ((RunState.advance problem)^[steps] state).ListsAnswers problem :=
  iterate_advance_induction (fun _ _ lists found => lists.advance found) lists steps

theorem listsAnswers_initial (nonterminals : Nonterminals) (options : SolveOptions) :
    (problem.initial nonterminals options).ListsAnswers problem := by
  have start : (blank nonterminals options).ListsAnswers problem := by
    simp [ListsAnswers, blank]
  exact start.mono (Nat.zero_le _) (foldl_offer_grows _ _ _)

theorem ListsAnswers.of_finished (lists : state.ListsAnswers problem)
    (finished : state.isFinished = true) :
    state.spans.toList =
      state.table.derivations.toList.filterMap (Derivation.answer? problem.program.start) := by
  have size : state.table.size ≤ state.taken := by
    simpa [isFinished] using finished
  have whole : state.table.derivations.toList.length ≤ state.taken := by
    rw [Array.length_toList]
    exact size
  rw [ListsAnswers, List.take_of_length_le whole] at lists
  exact lists

/-! ## Nonterminals -/

theorem nonterminals_advance (problem : Problem) (state : RunState) :
    (state.advance problem).table.nonterminals = state.table.nonterminals := by
  cases found : state.table.derivation? state.taken with
  | none => simp [advance, found]
  | some derivation =>
      rw [advance_eq found, (foldl_offer_grows _ _ _).nonterminals, taking_table]

theorem nonterminals_iterate (problem : Problem) (state : RunState) (steps : Nat) :
    ((advance problem)^[steps] state).table.nonterminals = state.table.nonterminals := by
  induction steps with
  | zero => rfl
  | succ steps induction =>
      rw [Function.iterate_succ_apply', nonterminals_advance, induction]

/-! ## Runs without provenance -/

/-- The state without its records. -/
def withoutProvenance (state : RunState) : RunState :=
  { state with provenance := none }

private theorem withoutProvenance_offer (components : Components) (state : RunState)
    (candidate : Candidate) :
    offer components state.withoutProvenance candidate =
      (offer components state candidate).withoutProvenance := by
  unfold offer withoutProvenance
  split
  · rfl
  · rfl

private theorem withoutProvenance_noteAnswer (start : NonterminalId) (state : RunState)
    (id : DerivationId) (derivation : Derivation) :
    noteAnswer start state.withoutProvenance id derivation =
      (noteAnswer start state id derivation).withoutProvenance := by
  unfold noteAnswer withoutProvenance
  split
  · split
    · rfl
    · rfl
  · rfl

theorem withoutProvenance_advance (problem : Problem) :
    Function.Semiconj withoutProvenance (advance problem) (advance problem) := by
  intro state
  cases found : state.table.derivation? state.taken with
  | none =>
      have same : state.withoutProvenance.table.derivation? state.withoutProvenance.taken =
          none := found
      simp [advance, found, same]
  | some derivation =>
      have same : state.withoutProvenance.table.derivation? state.withoutProvenance.taken =
          some derivation := found
      have noted : taking problem state.withoutProvenance derivation =
          (taking problem state derivation).withoutProvenance := by
        simp only [taking, withoutProvenance_noteAnswer]
        rfl
      rw [advance_eq found, advance_eq same, noted]
      exact (List.foldl_hom withoutProvenance (withoutProvenance_offer _)).symm

theorem withoutProvenance_iterate (problem : Problem) (state : RunState) (steps : Nat) :
    (advance problem)^[steps] state.withoutProvenance =
      ((advance problem)^[steps] state).withoutProvenance :=
  ((withoutProvenance_advance problem).iterate_right steps state).symm

theorem withoutProvenance_initial (problem : Problem) (nonterminals : Nonterminals)
    (options : SolveOptions) :
    (problem.initial nonterminals options).withoutProvenance =
      problem.initial nonterminals { recordProvenance := false } :=
  (List.foldl_hom withoutProvenance (withoutProvenance_offer _)).symm

theorem ends_withoutProvenance :
    Ends problem state.withoutProvenance ↔ Ends problem state := by
  unfold Ends
  simp only [withoutProvenance_iterate]
  rfl

theorem run_withoutProvenance (ends : Ends problem state) (counted : Nat) :
    run problem counted state.withoutProvenance =
      (run problem counted state).withoutProvenance := by
  obtain ⟨steps, finished⟩ := ends
  have same : ((advance problem)^[steps] state.withoutProvenance).isFinished = true := by
    rw [withoutProvenance_iterate]
    exact finished
  rw [run_eq_iterate finished, run_eq_iterate same, withoutProvenance_iterate]

end RunState

section Solve

variable {graph : Graph} {grammar : Grammar} {options : SolveOptions}

theorem nonterminals_solve (ends : SolveEnds graph grammar options) :
    (solve graph grammar options).derivations.nonterminals =
      (Program.ofGrammar grammar).1 := by
  obtain ⟨_, steps, same⟩ := ends.exists_iterate Problem.countedSteps
  rw [derivations_solve, solvedState, same, RunState.nonterminals_iterate]
  exact (RunState.foldl_offer_grows _ _ _).nonterminals

theorem spans_solve_eq_filterMap (ends : SolveEnds graph grammar options) :
    (solve graph grammar options).spans =
      (solve graph grammar options).derivations.derivations.toList.filterMap
        (Derivation.answer? (Program.ofGrammar grammar).2.start) := by
  obtain ⟨finished, steps, same⟩ := ends.exists_iterate Problem.countedSteps
  have start : RunState.ListsAnswers (Problem.ofGrammar graph grammar).2 _ :=
    RunState.listsAnswers_initial (Problem.ofGrammar graph grammar).1 options
  have lists := start.iterate steps
  rw [← same] at lists
  rw [spans_solve, derivations_solve, solvedState]
  exact lists.of_finished finished

theorem SolveEnds.of_options (ends : SolveEnds graph grammar options)
    (other : SolveOptions) : SolveEnds graph grammar other := by
  rw [SolveEnds, ← RunState.ends_withoutProvenance,
    RunState.withoutProvenance_initial] at ends ⊢
  exact ends

private theorem solvedState_withoutProvenance (ends : SolveEnds graph grammar options) :
    (solvedState graph grammar options).withoutProvenance =
      solvedState graph grammar { recordProvenance := false } := by
  rw [solvedState, solvedState, ← RunState.run_withoutProvenance ends,
    RunState.withoutProvenance_initial]

theorem solve_eq_of_options (ends : SolveEnds graph grammar options)
    (other : SolveOptions) :
    (solve graph grammar other).spans = (solve graph grammar options).spans ∧
      (solve graph grammar other).derivations =
        (solve graph grammar options).derivations := by
  have same : (solvedState graph grammar other).withoutProvenance =
      (solvedState graph grammar options).withoutProvenance := by
    rw [solvedState_withoutProvenance ends, solvedState_withoutProvenance (ends.of_options other)]
  rw [spans_solve, spans_solve, derivations_solve, derivations_solve]
  exact ⟨congrArg (·.spans.toList) same, congrArg (·.table) same⟩

end Solve

end GrammarReach
