import GrammarReach.Proofs.Saturation.LeastFixpoint
import Mathlib.Data.List.Perm.Subperm
import Mathlib.Algebra.Order.BigOperators.Group.List
import Mathlib.Algebra.Order.Group.Nat

/-!
# Solving that ends

A run that ends has taken every derivation of the grammar.  When the numbers of
segments are bounded, as they are when every nonterminal has a fixed number of
them, there are finitely many derivations over a graph, and the run ends.
-/

namespace GrammarReach

/-! ## Numbers of segments -/

/-- Each nonterminal has a fixed number of segments, which every rule keeps to. -/
structure Grammar.HasArities (grammar : Grammar) (arity : Nonterminal → Nat) : Prop where
  basic : ∀ rule ∈ grammar.basic, arity rule.head = 1
  prepend : ∀ rule ∈ grammar.prepend, arity rule.head = arity rule.body
  append : ∀ rule ∈ grammar.append, arity rule.head = arity rule.body
  insert : ∀ rule ∈ grammar.insert, arity rule.head = arity rule.body + 1
  concatenate : ∀ rule ∈ grammar.concatenate, arity rule.head = rule.wiring.length

section Derivations

variable {grammar : Grammar} {graph : Graph} {keeps : List Span → Prop}

theorem Grammar.HasArities.length_eq {arity : Nonterminal → Nat}
    (arities : grammar.HasArities arity) {entry : Entry}
    (member : entry ∈ grammar.leastClosed graph keeps) :
    entry.2.length = arity entry.1 := by
  have closes : grammar.Closes graph keeps {entry | entry.2.length = arity entry.1} := by
    intro entry infers _
    cases infers with
    | @basic rule edge member _ _ => exact (arities.basic rule member).symm
    | @prepend rule segments span source member body _ _ =>
        exact (List.length_set.trans body).trans (arities.prepend rule member).symm
    | @append rule segments span target member body _ _ =>
        exact (List.length_set.trans body).trans (arities.append rule member).symm
    | @insert rule segments edge member body inside _ _ =>
        have longer := List.length_insertIdx_of_le_length inside ⟨edge.source, edge.target⟩
        exact longer.trans ((congrArg (· + 1) body).trans (arities.insert rule member).symm)
    | @concatenate rule result segments member _ _ connects =>
        exact connects.chains.length_eq.symm.trans (arities.concatenate rule member).symm
  exact leastClosed_subset closes member

/-- Every entry of the least closed set is one for the head of a rule. -/
theorem Grammar.exists_rule_of_mem_leastClosed {entry : Entry}
    (member : entry ∈ grammar.leastClosed graph keeps) :
    ∃ rule ∈ grammar.rules, rule.head = entry.1 := by
  have closes : grammar.Closes graph keeps
      {entry | ∃ rule ∈ grammar.rules, rule.head = entry.1} := by
    intro entry infers _
    simp only [Grammar.rules, List.mem_append, List.mem_map, Set.mem_ofPred_eq]
    cases infers with
    | @basic rule _ member _ _ =>
        exact ⟨.basic rule, .inl (.inl (.inl (.inl ⟨rule, member, rfl⟩))), rfl⟩
    | @prepend rule _ _ _ member _ _ _ =>
        exact ⟨.prepend rule, .inl (.inl (.inl (.inr ⟨rule, member, rfl⟩))), rfl⟩
    | @append rule _ _ _ member _ _ _ =>
        exact ⟨.append rule, .inl (.inl (.inr ⟨rule, member, rfl⟩)), rfl⟩
    | @insert rule _ _ member _ _ _ _ =>
        exact ⟨.insert rule, .inl (.inr ⟨rule, member, rfl⟩), rfl⟩
    | @concatenate rule _ _ member _ _ _ =>
        exact ⟨.concatenate rule, .inr ⟨rule, member, rfl⟩, rfl⟩
  exact leastClosed_subset closes member

end Derivations

/-! ## Counting derivations -/

/-- The lists of at most `count` of the given items. -/
private def listsUpTo {α : Type} (items : List α) : Nat → List (List α)
  | 0 => [[]]
  | count + 1 => [] :: (listsUpTo items count).flatMap fun rest => items.map (· :: rest)

private theorem mem_listsUpTo {α : Type} {items list : List α} {count : Nat}
    (short : list.length ≤ count) (inside : ∀ item ∈ list, item ∈ items) :
    list ∈ listsUpTo items count := by
  induction count generalizing list with
  | zero =>
      have empty : list = [] := List.length_eq_zero_iff.mp (by omega)
      simp [listsUpTo, empty]
  | succ count induction =>
      cases list with
      | nil => simp [listsUpTo]
      | cons item list =>
          have rest := @induction list (by simpa using short)
            fun other member => inside other (by simp [member])
          exact List.mem_cons_of_mem _ (List.mem_flatMap.mpr
            ⟨list, rest, List.mem_map.mpr ⟨item, inside item (by simp), rfl⟩⟩)

private def allSpans (graph : Graph) : List Span :=
  graph.vertexList.flatMap fun start => graph.vertexList.map fun stop => ⟨start, stop⟩

private theorem mem_allSpans {graph : Graph} {span : Span} (spans : graph.Spans span) :
    span ∈ allSpans graph := by
  refine List.mem_flatMap.mpr ⟨span.start, Graph.mem_vertexList.mpr spans.1, ?_⟩
  exact List.mem_map.mpr ⟨span.stop, Graph.mem_vertexList.mpr spans.2, rfl⟩

section Solve

variable {graph : Graph} {grammar : Grammar}

/-- Solving the grammar over the graph ends. -/
def SolveEnds (graph : Graph) (grammar : Grammar) (options : SolveOptions) : Prop :=
  RunState.Ends (Problem.ofGrammar graph grammar).2
    ((Problem.ofGrammar graph grammar).2.initial (Problem.ofGrammar graph grammar).1 options)

/-- The run that solves a grammar over a graph. -/
@[irreducible] def solvedState (graph : Graph) (grammar : Grammar) (options : SolveOptions) :
    RunState :=
  RunState.run (Problem.ofGrammar graph grammar).2 Problem.countedSteps
    ((Problem.ofGrammar graph grammar).2.initial (Problem.ofGrammar graph grammar).1 options)

private theorem solve_eq (graph : Graph) (grammar : Grammar) (options : SolveOptions) :
    solve graph grammar options =
      ⟨(solvedState graph grammar options).spans.toList,
        (solvedState graph grammar options).table,
        (solvedState graph grammar options).provenance⟩ := by
  unfold solve solvedState
  generalize Problem.ofGrammar graph grammar = prepared
  obtain ⟨nonterminals, problem⟩ := prepared
  rfl

theorem spans_solve (graph : Graph) (grammar : Grammar) (options : SolveOptions) :
    (solve graph grammar options).spans =
      (solvedState graph grammar options).spans.toList := by
  rw [solve_eq]

theorem derivations_solve (graph : Graph) (grammar : Grammar) (options : SolveOptions) :
    (solve graph grammar options).derivations =
      (solvedState graph grammar options).table := by
  rw [solve_eq]

theorem provenance_solve (graph : Graph) (grammar : Grammar) (options : SolveOptions) :
    (solve graph grammar options).provenance =
      (solvedState graph grammar options).provenance := by
  rw [solve_eq]

theorem valid_initialState (graph : Graph) (grammar : Grammar) (options : SolveOptions) :
    ((Problem.ofGrammar graph grammar).2.initial (Problem.ofGrammar graph grammar).1
      options).Valid (Problem.ofGrammar graph grammar).2 :=
  RunState.valid_initial (Program.represents_ofGrammar grammar).wellFiled _ options

theorem valid_solvedState (built : graph.Built) {options : SolveOptions}
    (ends : SolveEnds graph grammar options) :
    (solvedState graph grammar options).Valid (Problem.ofGrammar graph grammar).2 ∧
      (solvedState graph grammar options).isFinished = true := by
  have initial := valid_initialState graph grammar options
  rw [solvedState]
  constructor
  · exact initial.run built.indexed (Program.represents_ofGrammar grammar).wellFiled ends _
  · exact (ends.exists_iterate _).1

/-- The answers are the spans that the grammar derives for the start
nonterminal. -/
theorem mem_spans_iff_derives (built : graph.Built) {options : SolveOptions}
    (ends : SolveEnds graph grammar options) {span : Span} :
    span ∈ (solve graph grammar options).spans ↔
      ∃ used, grammar.Derives graph Grammar.startName [span] used := by
  have represents := Program.represents_ofGrammar grammar
  obtain ⟨valid, finished⟩ := valid_solvedState built ends
  rw [spans_solve, Array.mem_toList_iff, valid.answers.spans span]
  constructor
  · rintro ⟨id, _, found⟩
    obtain ⟨used, derives⟩ := valid.sound.derivable id _ found
    obtain ⟨name, numbered, grammarDerives⟩ := derives.toGrammar represents
    have same := represents.coherent.id_injective _ _ _ numbered represents.start
    exact ⟨used, same ▸ grammarDerives⟩
  · rintro ⟨used, derives⟩
    obtain ⟨id, numbered, problemDerives⟩ := derives.toProblem represents
    rw [represents.start] at numbered
    cases numbered
    obtain ⟨place, found, _⟩ := valid.exists_of_derives finished problemDerives
    exact ⟨place, RunState.lt_taken_of_finished finished found, found⟩

/-! ## Bounded numbers of segments -/

private theorem exists_size_le (built : graph.Built) {limit : Nat}
    (short : ∀ entry ∈ grammar.leastClosed graph graph.Linked, entry.2.length ≤ limit) :
    ∃ size, ∀ state : RunState, state.Valid (Problem.ofGrammar graph grammar).2 →
      state.table.size ≤ size := by
  have represents := Program.represents_ofGrammar grammar
  let nonterminals := (Program.ofGrammar grammar).1
  let shapes := (List.range nonterminals.size).flatMap fun nonterminal =>
    (listsUpTo (allSpans graph) limit).map fun segments =>
      (⟨nonterminal, segments⟩ : Derivation)
  refine ⟨shapes.length, fun state valid => ?_⟩
  have subset : state.table.derivations.toList ⊆ shapes := by
    intro derivation member
    obtain ⟨id, found⟩ := List.mem_iff_getElem?.mp member
    rw [Array.getElem?_toList] at found
    obtain ⟨used, derives⟩ := valid.sound.derivable id derivation found
    obtain ⟨name, numbered, grammarDerives⟩ := derives.toGrammar represents
    have below := represents.coherent.id_lt name _ numbered
    have member := (Grammar.mem_leastClosed_iff_derives built).mpr ⟨used, grammarDerives⟩
    refine List.mem_flatMap.mpr ⟨derivation.nonterminal, List.mem_range.mpr below, ?_⟩
    refine List.mem_map.mpr ⟨derivation.segments, mem_listsUpTo (short _ member) ?_, rfl⟩
    intro span inSegments
    exact mem_allSpans (Grammar.spans_of_mem_leastClosed built.closed member span inSegments)
  have count := (valid.sound.coherent.nodup.subperm subset).length_le
  rwa [Array.length_toList] at count

theorem solveEnds_of_bounded (built : graph.Built) {limit : Nat}
    (short : ∀ entry ∈ grammar.leastClosed graph graph.Linked, entry.2.length ≤ limit)
    (options : SolveOptions) :
    SolveEnds graph grammar options := by
  obtain ⟨size, bounded⟩ := exists_size_le built short
  exact (valid_initialState graph grammar options).ends built.indexed
    (Program.represents_ofGrammar grammar).wellFiled bounded

variable {arity : Nonterminal → Nat}

theorem Grammar.HasArities.solveEnds (arities : grammar.HasArities arity)
    (built : graph.Built) (options : SolveOptions) : SolveEnds graph grammar options := by
  apply solveEnds_of_bounded built
  intro entry member
  obtain ⟨rule, inRules, head⟩ := Grammar.exists_rule_of_mem_leastClosed member
  rw [arities.length_eq member, ← head]
  exact List.le_sum_of_mem (List.mem_map.mpr ⟨rule, inRules, rfl⟩)

/-- With fixed numbers of segments, the answers are the spans that the grammar derives
for the start nonterminal. -/
theorem mem_spans_solve (built : graph.Built) (arities : grammar.HasArities arity)
    {options : SolveOptions} {span : Span} :
    span ∈ (solve graph grammar options).spans ↔
      ∃ used, grammar.Derives graph Grammar.startName [span] used :=
  mem_spans_iff_derives built (arities.solveEnds built options)

end Solve

end GrammarReach
