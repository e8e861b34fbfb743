import GrammarReach.Proofs.Saturation.AcceptanceOrder
import GrammarReach.Proofs.Saturation.WordArities
import Mathlib.Data.List.Nodup

/-!
# Solved tables

The table of a run that ends holds the least set of entries that is closed under the
rules as far as segments are linked, each entry once.  The answers are read off the
table from top to bottom.
-/

namespace GrammarReach

/-- The entries of a table in the order of acceptance. -/
def DerivationTable.entries (table : DerivationTable) : List Entry :=
  table.derivations.toList.map fun derivation =>
    (table.nonterminals.name derivation.nonterminal, derivation.segments)

/-- The span of a one-segment entry of the start nonterminal. -/
def Entry.answer? (entry : Entry) : Option Span :=
  match entry.2 with
  | [span] => if entry.1 = Grammar.startName then some span else none
  | _ => none

theorem Entry.answer?_eq_some_iff {entry : Entry} {span : Span} :
    Entry.answer? entry = some span ↔ entry = (Grammar.startName, [span]) := by
  obtain ⟨name, segments⟩ := entry
  match segments with
  | [] => simp [answer?]
  | [only] => simp [answer?]
  | first :: second :: rest => simp [answer?]

section Solve

variable {graph : Graph} {grammar : Grammar} {options : SolveOptions}

private theorem mem_derivations_solve (built : graph.Built)
    (ends : SolveEnds graph grammar options) {derivation : Derivation} :
    derivation ∈ (solve graph grammar options).derivations.derivations ↔
      ∃ name, (Program.ofGrammar grammar).1.id? name = some derivation.nonterminal ∧
        (name, derivation.segments) ∈ grammar.leastClosed graph graph.Linked := by
  have represents := Program.represents_ofGrammar grammar
  obtain ⟨valid, finished⟩ := valid_solvedState built ends
  rw [derivations_solve, Array.mem_iff_getElem?]
  constructor
  · rintro ⟨id, found⟩
    obtain ⟨used, derives⟩ := valid.sound.derivable id derivation found
    obtain ⟨name, numbered, grammarDerives⟩ := derives.toGrammar represents
    exact ⟨name, numbered,
      (Grammar.mem_leastClosed_iff_derives built).mpr ⟨used, grammarDerives⟩⟩
  · rintro ⟨name, numbered, member⟩
    obtain ⟨used, derives⟩ := (Grammar.mem_leastClosed_iff_derives built).mp member
    obtain ⟨id, sameNumber, problemDerives⟩ := derives.toProblem represents
    rw [numbered] at sameNumber
    cases sameNumber
    obtain ⟨place, found, _⟩ := valid.exists_of_derives finished problemDerives
    exact ⟨place, found⟩

private theorem entries_solve (ends : SolveEnds graph grammar options) :
    (solve graph grammar options).derivations.entries =
      (solve graph grammar options).derivations.derivations.toList.map fun derivation =>
        ((Program.ofGrammar grammar).1.name derivation.nonterminal, derivation.segments) := by
  rw [DerivationTable.entries, nonterminals_solve ends]

/-- The table of a run that ends holds the least closed set. -/
theorem mem_entries_solve (built : graph.Built) (ends : SolveEnds graph grammar options)
    {entry : Entry} :
    entry ∈ (solve graph grammar options).derivations.entries ↔
      entry ∈ grammar.leastClosed graph graph.Linked := by
  have represents := Program.represents_ofGrammar grammar
  rw [entries_solve ends, List.mem_map]
  constructor
  · rintro ⟨derivation, member, rfl⟩
    obtain ⟨name, numbered, closed⟩ :=
      (mem_derivations_solve built ends).mp (Array.mem_toList_iff.mp member)
    rw [represents.coherent.name_of_id? numbered]
    exact closed
  · intro closed
    obtain ⟨used, derives⟩ := (Grammar.mem_leastClosed_iff_derives built).mp closed
    obtain ⟨id, numbered, _⟩ := derives.toProblem represents
    refine ⟨⟨id, entry.2⟩, ?_, ?_⟩
    · exact Array.mem_toList_iff.mpr
        ((mem_derivations_solve built ends).mpr ⟨entry.1, numbered, closed⟩)
    · rw [represents.coherent.name_of_id? numbered]

theorem nodup_entries_solve (built : graph.Built)
    (ends : SolveEnds graph grammar options) :
    (solve graph grammar options).derivations.entries.Nodup := by
  have represents := Program.represents_ofGrammar grammar
  obtain ⟨valid, _⟩ := valid_solvedState built ends
  have once := valid.sound.coherent.nodup
  rw [← derivations_solve] at once
  rw [entries_solve ends]
  apply once.map_on
  intro first firstMember second secondMember same
  obtain ⟨firstName, firstNumbered, _⟩ :=
    (mem_derivations_solve built ends).mp (Array.mem_toList_iff.mp firstMember)
  obtain ⟨secondName, secondNumbered, _⟩ :=
    (mem_derivations_solve built ends).mp (Array.mem_toList_iff.mp secondMember)
  obtain ⟨names, segments⟩ := Prod.mk.inj same
  rw [represents.coherent.name_of_id? firstNumbered,
    represents.coherent.name_of_id? secondNumbered] at names
  subst names
  rw [firstNumbered] at secondNumbered
  obtain ⟨firstNonterminal, firstSegments⟩ := first
  obtain ⟨secondNonterminal, secondSegments⟩ := second
  cases secondNumbered
  cases segments
  rfl

theorem spans_solve_eq_answers (built : graph.Built)
    (ends : SolveEnds graph grammar options) :
    (solve graph grammar options).spans =
      (solve graph grammar options).derivations.entries.filterMap Entry.answer? := by
  have represents := Program.represents_ofGrammar grammar
  rw [spans_solve_eq_filterMap ends, entries_solve ends, List.filterMap_map]
  apply List.filterMap_congr
  intro derivation member
  obtain ⟨name, numbered, _⟩ :=
    (mem_derivations_solve built ends).mp (Array.mem_toList_iff.mp member)
  have start : derivation.nonterminal = (Program.ofGrammar grammar).2.start ↔
      name = Grammar.startName := by
    constructor
    · intro same
      exact represents.coherent.id_injective _ _ _ numbered (same ▸ represents.start)
    · rintro rfl
      rw [represents.start] at numbered
      exact (Option.some.inj numbered).symm
  obtain ⟨nonterminal, segments⟩ := derivation
  match segments with
  | [] => rfl
  | [span] =>
      simp only [Derivation.answer?, Entry.answer?, Function.comp_apply, start,
        represents.coherent.name_of_id? numbered]
  | first :: second :: rest => rfl

private theorem nodup_spans_solve (built : graph.Built)
    (ends : SolveEnds graph grammar options) :
    (solve graph grammar options).spans.Nodup := by
  rw [spans_solve_eq_answers built ends]
  apply (nodup_entries_solve built ends).filterMap
  intro first second span firstAnswer secondAnswer
  exact (Entry.answer?_eq_some_iff.mp firstAnswer).trans
    (Entry.answer?_eq_some_iff.mp secondAnswer).symm

private theorem isLeast_entries_solve (built : graph.Built)
    (ends : SolveEnds graph grammar options) :
    IsLeast {known | grammar.Closes graph graph.Linked known}
      {entry | entry ∈ (solve graph grammar options).derivations.entries} := by
  have table : {entry | entry ∈ (solve graph grammar options).derivations.entries} =
      grammar.leastClosed graph graph.Linked := by
    ext entry
    exact mem_entries_solve built ends
  rw [table]
  exact Grammar.isLeast_leastClosed grammar graph graph.Linked

/-- Solving the grammar over the graph ends, with arities in machine words. -/
def SolveInWordsEnds (graph : Graph) (grammar : Grammar) (options : SolveOptions) : Prop :=
  RunState.Ends (Problem.inWords graph grammar).2
    ((Problem.inWords graph grammar).2.initial (Problem.inWords graph grammar).1 options)

theorem Grammar.InWords.solveEnds_iff (inWords : grammar.InWords) :
    SolveInWordsEnds graph grammar options ↔ SolveEnds graph grammar options := by
  rw [SolveInWordsEnds, SolveEnds, inWords.problem_eq]

/-- A run that ends computes the least fixpoint of the rules.  It holds every entry once
and lists the one-segment entries of the start nonterminal in the order of acceptance,
whether or not it records where they came from. -/
theorem isLeast_entries_solveInWords (built : graph.Built) (inWords : grammar.InWords)
    (ends : SolveInWordsEnds graph grammar options) :
    IsLeast {known | grammar.Closes graph graph.Linked known}
        {entry | entry ∈ (solveInWords graph grammar options).derivations.entries} ∧
      (solveInWords graph grammar options).derivations.entries.Nodup ∧
      (solveInWords graph grammar options).spans =
        (solveInWords graph grammar options).derivations.entries.filterMap Entry.answer? ∧
      (solveInWords graph grammar options).spans.Nodup ∧
      ∀ other, SolveInWordsEnds graph grammar other ∧
        (solveInWords graph grammar other).spans = (solveInWords graph grammar options).spans ∧
        (solveInWords graph grammar other).derivations =
          (solveInWords graph grammar options).derivations := by
  simp only [inWords.solve_eq, inWords.solveEnds_iff] at ends ⊢
  exact ⟨isLeast_entries_solve built ends, nodup_entries_solve built ends,
    spans_solve_eq_answers built ends, nodup_spans_solve built ends,
    fun other => ⟨ends.of_options other, solve_eq_of_options ends other⟩⟩

end Solve

/-- A cycle, and an edge that leads into it. -/
def cycleGraph : Graph :=
  .ofEdges [⟨0, 1, "a"⟩, ⟨1, 1, "b"⟩, ⟨1, 2, "c"⟩, ⟨2, 0, "d"⟩, ⟨3, 0, "c"⟩]

/-- Nested pairs of `a` and `c` around `b`, in sequences with any number of `d`. -/
def nestedPairs : Grammar where
  basic := [⟨"A", "a"⟩, ⟨"S", "b"⟩]
  prepend := [⟨"S", "S", "d", 0, 1⟩]
  append := [⟨"S", "S", "d", 0, 1⟩]
  insert := [⟨"P", "A", "c", 1, 1⟩]
  concatenate := [⟨"S", ["P", "S"], [[⟨0, 0⟩, ⟨1, 0⟩, ⟨0, 1⟩]]⟩,
    ⟨"S", ["S", "S"], [[⟨0, 0⟩, ⟨1, 0⟩]]⟩]

private theorem entries_nestedPairs :
    (solveInWords cycleGraph nestedPairs {}).derivations.entries =
      [("A", [⟨0, 1⟩]), ("S", [⟨1, 1⟩]), ("P", [⟨0, 1⟩, ⟨1, 2⟩]), ("S", [⟨0, 2⟩]),
        ("S", [⟨2, 2⟩]), ("S", [⟨0, 0⟩]), ("S", [⟨2, 0⟩])] := by
  decide +kernel

/-- The least fixpoint has no pair of `[0 1]` and `[3 0]`, because 1 does not reach 3. -/
theorem isLeast_entries_nestedPairs :
    cycleGraph.Built ∧ nestedPairs.InWords ∧ SolveInWordsEnds cycleGraph nestedPairs {} ∧
      IsLeast {known | nestedPairs.Closes cycleGraph cycleGraph.Linked known}
        {entry | entry ∈ [("A", [⟨0, 1⟩]), ("S", [⟨1, 1⟩]), ("P", [⟨0, 1⟩, ⟨1, 2⟩]),
          ("S", [⟨0, 2⟩]), ("S", [⟨2, 2⟩]), ("S", [⟨0, 0⟩]), ("S", [⟨2, 0⟩])]} ∧
      (solveInWords cycleGraph nestedPairs {}).spans =
        [⟨1, 1⟩, ⟨0, 2⟩, ⟨2, 2⟩, ⟨0, 0⟩, ⟨2, 0⟩] := by
  have built : cycleGraph.Built := Graph.built_ofEdges _
  have inWords : nestedPairs.InWords := by decide +kernel
  have ends : SolveInWordsEnds cycleGraph nestedPairs {} := ⟨7, by decide +kernel⟩
  obtain ⟨least, _, answers, _, _⟩ := isLeast_entries_solveInWords built inWords ends
  rw [entries_nestedPairs] at least answers
  exact ⟨built, inWords, ends, least, answers⟩

/-- The arity of the last word is zero, so the run answers with a segment that is missing. -/
theorem not_isLeast_entries_lastSegment :
    oneEdge.Built ∧ SolveInWordsEnds oneEdge lastSegment {} ∧
      (solveInWords oneEdge lastSegment {}).spans = [⟨0, 1⟩] ∧
      ¬ IsLeast {known | lastSegment.Closes oneEdge oneEdge.Linked known}
        {entry | entry ∈ (solveInWords oneEdge lastSegment {}).derivations.entries} := by
  have built : oneEdge.Built := Graph.built_ofEdges _
  refine ⟨built, ⟨2, by decide +kernel⟩, by decide +kernel, fun least => ?_⟩
  have exact := isLeast_entries_solve built (⟨1, by decide +kernel⟩ : SolveEnds oneEdge
    lastSegment {})
  have derived : ("S", [⟨0, 1⟩]) ∈ (solveInWords oneEdge lastSegment {}).derivations.entries := by
    decide +kernel
  have missing : ("S", [⟨0, 1⟩]) ∉ (solve oneEdge lastSegment {}).derivations.entries := by
    decide +kernel
  exact missing (least.2 exact.1 derived)

end GrammarReach
