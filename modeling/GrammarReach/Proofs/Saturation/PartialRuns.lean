import GrammarReach.Proofs.Saturation.Termination

/-!
# Solving as a partial function

A run that never takes all derivations of its table has no result.  When the run ends,
solving as a partial function has a result, and it is the usual one.
-/

namespace GrammarReach

theorem mapM_eq_some {α β : Type} {items : List α} {partial? : α → Option β} {total : α → β}
    (each : ∀ item ∈ items, partial? item = some (total item)) :
    items.mapM partial? = some (items.map total) := by
  induction items with
  | nil => rfl
  | cons item items induction =>
      obtain ⟨first, rest⟩ := List.forall_mem_cons.mp each
      rw [List.mapM_cons, first, induction rest]
      rfl

/-- Advances until every derivation was taken, without a result when that never happens. -/
def RunState.runOn? (problem : Problem) (state : RunState) : Option RunState :=
  if state.isFinished then some state else state.advance problem |>.runOn? problem
partial_fixpoint

/-- The derivations of a grammar over a graph, without a result when the run does not end. -/
def solve? (graph : Graph) (grammar : Grammar) (options : SolveOptions := {}) :
    Option Reachability := do
  let (nonterminals, problem) := Problem.ofGrammar graph grammar
  let state ← (problem.initial nonterminals options).runOn? problem
  return ⟨state.spans.toList, state.table, state.provenance⟩

namespace RunState

variable {problem : Problem} {state : RunState}

theorem Ends.runOn?_eq (ends : Ends problem state) :
    runOn? problem state = some (runOn problem state) := by
  obtain ⟨steps, finished⟩ := ends
  induction steps generalizing state with
  | zero =>
      have now : state.isFinished = true := finished
      rw [runOn?, runOn, if_pos now, if_pos now]
  | succ steps induction =>
      by_cases now : state.isFinished = true
      · rw [runOn?, runOn, if_pos now, if_pos now]
      · rw [runOn?, runOn, if_neg now, if_neg now]
        exact induction finished

end RunState

section Solve

variable {graph : Graph} {grammar : Grammar} {options : SolveOptions}

theorem SolveEnds.solve?_eq (ends : SolveEnds graph grammar options) :
    solve? graph grammar options = some (solve graph grammar options) := by
  unfold solve? solve Problem.reachability
  simp only [RunState.run_eq_runOn]
  rw [RunState.Ends.runOn?_eq ends]
  rfl

end Solve

end GrammarReach
