import GrammarReach.Proofs.Bracket.AutomatonLanguages
import GrammarReach.Proofs.Bracket.RecognizedWords

/-!
# Products with an automaton

The product of a graph with an automaton runs the automaton along the walks of the graph:
the grammar of the other family answers over the product with the ends of the walks that
the automaton accepts and whose words, with `normal` for the brackets of the automaton, the
grammar recognizes.
-/

namespace GrammarReach

namespace BracketAutomaton

open BracketLanguage

section Runs

variable {automaton : BracketAutomaton}

theorem run_copies_iff {first last : Nat} {path : List Edge} {word : List Label} :
    LayeredGraph.Run automaton.copies first path word last ↔
      word = (wordOf path).map automaton.shown ∧ automaton.Reads first (wordOf path) last := by
  constructor
  · intro run
    refine ⟨word_of_run run, ?_⟩
    induction run with
    | nil state => exact .nil state
    | cons copy _ induction => exact .cons (mem_copies.mp copy).1 induction
  · rintro ⟨rfl, reads⟩
    induction path generalizing first with
    | nil =>
        cases reads
        exact .nil _
    | cons edge path induction =>
        cases reads with
        | cons move rest => exact .cons (mem_copies.mpr ⟨move, rfl⟩) (induction rest)

/-- An accepted walk is accepted without its epsilon loops. -/
theorem AcceptsFrom.withoutLoops {path : List Edge} :
    ∀ {state : Nat}, automaton.AcceptsFrom state (wordOf path) →
      automaton.AcceptsFrom state (wordOf (withoutLoops path)) := by
  induction path with
  | nil => exact id
  | cons edge path induction =>
      intro state accepted
      rw [wordOf_cons] at accepted
      cases loop : edge.isEpsilonLoop with
      | true =>
          have other : automaton.family.bracketOf? edge.label = none := by
            rw [(Edge.isEpsilonLoop_iff.mp loop).2]
            exact BracketFamily.bracketOf?_of_foreign (BracketFamily.owns_epsilon _)
          rw [withoutLoops_cons_of_loop loop]
          exact induction (accepted.of_cons_other other)
      | false =>
          obtain ⟨next, move, rest⟩ := acceptsFrom_cons.mp accepted
          rw [withoutLoops_cons_of_noLoop loop, wordOf_cons]
          exact acceptsFrom_cons.mpr ⟨next, move, induction rest⟩

end Runs

section Product

variable {automaton : BracketAutomaton} {graph : Graph}

private theorem exists_walk_below {family : BracketFamily} {own passing : List Nat}
    {pair other start stop : Vertex} {last : Nat} {walk : List Edge}
    (placed : (automaton.product graph).split pair = some (start, 0))
    (otherPlaced : (automaton.product graph).split other = some (stop, last))
    (accepted : accepts automaton.analysis automaton.states last = true)
    (joins : Joins pair walk other)
    (inside : ∀ edge ∈ walk, edge ∈ (automaton.product graph).graph.edges)
    (balanced : BalancedWord family own passing (wordOf walk)) :
    ∃ path, Joins start path stop ∧ (∀ edge ∈ path, edge ∈ graph.edges) ∧
      BalancedWord family own passing ((wordOf path).map automaton.shown) ∧
      automaton.AcceptsFrom 0 (wordOf path) := by
  obtain ⟨stopBelow, lastBelow, path, placedBelow, joinsBelow, insideBelow, run⟩ :=
    LayeredGraph.exists_run_of_mem automaton.bounded_copies joins.withoutLoops
      (fun edge member => inside edge (mem_withoutLoops.mp member).1)
      (fun edge member => (mem_withoutLoops.mp member).2) placed
  obtain ⟨rfl, rfl⟩ := Prod.mk.inj (Option.some.inj (placedBelow.symm.trans otherPlaced))
  obtain ⟨spelled, reads⟩ := run_copies_iff.mp run
  refine ⟨path, joinsBelow, insideBelow, ?_, lastBelow, reads, accepted⟩
  rw [← spelled]
  exact (balancedWord_congr (filter_wordOf_withoutLoops walk)).mpr balanced

end Product

end BracketAutomaton

end GrammarReach
