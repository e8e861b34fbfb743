import GrammarReach.Proofs.Analysis.ValueFlow
import GrammarReach.Proofs.Bracket.SupportedWalks

/-!
# Answers over the tripled graph

The three layers of the tripled graph select the walks that begin with a source and end with
a sink behind it.  So what a bracket grammar answers from the first to the last layer are the
ends of accepted walks of this kind.
-/

namespace GrammarReach

open BracketLanguage

section Silent

variable {graph : Graph} {grammar : Grammar} {silent : Nonterminal}

private theorem lettersOf_wordOf {path : List Edge}
    (labelled : ∀ edge ∈ path, edge ∈ graph.labelledEdges) :
    lettersOf (wordOf path) = wordOf path := by
  refine List.filter_eq_self.mpr fun label member => ?_
  obtain ⟨edge, onPath, rfl⟩ := List.mem_map.mp member
  simpa [Edge.isEpsilon] using (Graph.mem_labelledEdges.mp (labelled edge onPath)).2

/-- Between different vertices a silent grammar answers with the ends of the accepted walks. -/
theorem BracketLanguage.SilentGrammar.mem_spans_solve (rules : SilentGrammar grammar silent)
    (built : graph.Built) (loops : graph.LoopsOnly) (options : SolveOptions) {span : Span}
    (different : span.start ≠ span.stop) :
    span ∈ (solve graph grammar options).spans ↔
      ∃ path, Joins span.start path span.stop ∧ (∀ edge ∈ path, edge ∈ graph.labelledEdges) ∧
        grammar.Accepts (wordOf path) := by
  rw [GrammarReach.mem_spans_solve built rules.shape.hasArities]
  constructor
  · rintro ⟨used, derives⟩
    obtain ⟨path, joins, inside, _, accepted⟩ := rules.walk_of_derives derives
    refine ⟨withoutEpsilon path, joins_withoutEpsilon loops joins inside,
      fun edge => mem_labelledEdges_of_withoutEpsilon inside, ?_⟩
    rw [wordOf_withoutEpsilon]
    exact accepted
  · rintro ⟨path, joins, labelled, accepted⟩
    have inside : ∀ edge ∈ path, edge ∈ graph.edges :=
      fun edge member => (Graph.mem_labelledEdges.mp (labelled edge member)).1
    have start := joins.start_mem built (joins.ne_nil different) inside
    rw [← lettersOf_wordOf labelled] at accepted
    obtain ⟨used, derives, _⟩ := derives_of_accepts built rules ⟨joins, inside, start⟩ accepted
    exact ⟨used, derives⟩

end Silent

namespace Graph

/-- The walk has at least two edges, its word is accepted, its first label is read as an
opening and its last label as a closing bracket of the bracket family. -/
structure AcceptedFlow (graph : Graph) (grammar : Grammar) (span : Span) (path : List Edge) :
    Prop where
  joins : Joins span.start path span.stop
  inside : ∀ edge ∈ path, edge ∈ graph.labelledEdges
  twoEdges : 2 ≤ path.length
  accepted : grammar.Accepts (wordOf path)
  opens : ∀ label ∈ (wordOf path).head?, ∃ id, BracketLabel.read label = .opening .bracket id
  closes : ∀ label ∈ (wordOf path).getLast?, ∃ id, BracketLabel.read label = .closing .bracket id

section Tripled

variable {graph : Graph} {grammar : Grammar} {span : Span} {path : List Edge}

private theorem isSourceLabel_iff {label : Label} :
    isSourceLabel label = true ↔ ∃ id, BracketLabel.read label = .opening .bracket id := by
  unfold isSourceLabel
  split <;> simp_all

private theorem isSinkLabel_iff {label : Label} :
    isSinkLabel label = true ↔ ∃ id, BracketLabel.read label = .closing .bracket id := by
  unfold isSinkLabel
  split <;> simp_all

private theorem acceptedFlow_iff : AcceptedFlow graph grammar span path ↔
    Joins span.start path span.stop ∧ (∀ edge ∈ path, edge ∈ graph.labelledEdges) ∧
      grammar.Accepts (wordOf path) ∧ LayeredGraph.Run flowCopies 0 path (wordOf path) 2 := by
  rw [run_flowCopies_iff]
  constructor
  · rintro ⟨joins, inside, twoEdges, accepted, opens, closes⟩
    refine ⟨joins, inside, accepted, rfl, ?_⟩
    cases path with
    | nil => cases twoEdges
    | cons opened tail =>
        rcases List.eq_nil_or_concat tail with rfl | ⟨inner, closed, rfl⟩
        · simp at twoEdges
        · refine ⟨opened, closed, inner, by simp, isSourceLabel_iff.mpr (opens _ rfl),
            isSinkLabel_iff.mpr (closes _ ?_)⟩
          simp [List.getLast?_cons]
  · rintro ⟨joins, inside, accepted, _, opened, closed, inner, rfl, isSource, isSink⟩
    refine ⟨joins, inside, by simp, accepted, ?_, ?_⟩
    · simpa using isSourceLabel_iff.mp isSource
    · simpa [List.getLast?_cons] using isSinkLabel_iff.mp isSink

private theorem loopsOnly_tripled (loops : graph.LoopsOnly) : graph.tripled.graph.LoopsOnly := by
  refine LayeredGraph.loopsOnly_ofCopies fun edge member noLoop copy isCopy => ?_
  obtain ⟨⟨first, next⟩, label⟩ := copy
  rw [(mem_flowCopies.mp isCopy).1]
  simpa [Edge.isEpsilon] using loops.isEpsilon_eq_false member noLoop

private theorem exists_acceptedFlow_iff (built : graph.Built) :
    (∃ path, AcceptedFlow graph grammar span path) ↔
      ∃ pair other walk, graph.tripled.split pair = some (span.start, 0) ∧
        graph.tripled.split other = some (span.stop, 2) ∧ Joins pair walk other ∧
        (∀ edge ∈ walk, edge ∈ graph.tripled.graph.labelledEdges) ∧
        grammar.Accepts (wordOf walk) := by
  constructor
  · rintro ⟨path, flow⟩
    obtain ⟨joins, inside, accepted, run⟩ := acceptedFlow_iff.mp flow
    have nonempty : path ≠ [] := by
      rintro rfl
      exact absurd flow.twoEdges (by decide)
    have start := joins.start_mem built nonempty
      fun edge onPath => (mem_labelledEdges.mp (inside edge onPath)).1
    have labelled : ∀ label ∈ wordOf path, label ≠ Grammar.epsilon := by
      intro label member
      obtain ⟨edge, onPath, rfl⟩ := List.mem_map.mp member
      simpa [Edge.isEpsilon] using (mem_labelledEdges.mp (inside edge onPath)).2
    obtain ⟨pair, other, walk, placed, otherPlaced, walkJoins, walkInside, spelled⟩ :=
      LayeredGraph.exists_walk_above built flowCopies_below run labelled joins inside start
        (by decide)
    exact ⟨pair, other, walk, placed, otherPlaced, walkJoins, walkInside, spelled ▸ accepted⟩
  · rintro ⟨pair, other, walk, placed, otherPlaced, joins, inside, accepted⟩
    obtain ⟨stop, last, path, lastPlaced, pathJoins, pathInside, run⟩ :=
      LayeredGraph.exists_run flowCopies_below joins inside placed
    obtain ⟨rfl, rfl⟩ := Prod.mk.inj (Option.some.inj (lastPlaced.symm.trans otherPlaced))
    obtain ⟨spelled, _⟩ := run_flowCopies_iff.mp run
    refine ⟨path, acceptedFlow_iff.mpr ⟨pathJoins, fun edge member => ?_, spelled ▸ accepted,
      spelled ▸ run⟩⟩
    have inWord : edge.label ∈ wordOf walk := spelled ▸ List.mem_map_of_mem member
    obtain ⟨copy, onWalk, same⟩ := List.mem_map.mp inWord
    have labelled := (mem_labelledEdges.mp (inside copy onWalk)).2
    exact mem_labelledEdges.mpr ⟨pathInside edge member, by
      simpa [Edge.isEpsilon, same] using labelled⟩

/-- Solving the tripled graph ends, and the answers projected from the first to the last layer
are the ends of the accepted flows. -/
theorem mem_projectFlows_solve (built : graph.Built) (loops : graph.LoopsOnly)
    (bracket : BracketGrammar grammar) (options : SolveOptions) :
    SolveEnds graph.tripled.graph grammar options ∧
      ∀ span, span.start ≠ span.stop →
        (span ∈ graph.tripled.projectFlows (solve graph.tripled.graph grammar options).spans ↔
          ∃ path, AcceptedFlow graph grammar span path) := by
  obtain ⟨silent, rules⟩ := bracket.exists_silent
  have tripledBuilt : graph.tripled.graph.Built := LayeredGraph.built_ofCopies
  refine ⟨rules.shape.hasArities.solveEnds tripledBuilt options, fun span different => ?_⟩
  have apart : ∀ {pair other : Vertex}, graph.tripled.split pair = some (span.start, 0) →
      graph.tripled.split other = some (span.stop, 2) → pair ≠ other := by
    rintro pair _ placed otherPlaced rfl
    exact absurd (Prod.mk.inj (Option.some.inj (placed.symm.trans otherPlaced))).2 (by decide)
  unfold LayeredGraph.projectFlows
  rw [LayeredGraph.mem_project, exists_acceptedFlow_iff built]
  constructor
  · rintro ⟨_, above, answer, last, placed, otherPlaced, isLast⟩
    obtain rfl : last = 2 := by simpa using isLast
    obtain ⟨walk, joins, inside, accepted⟩ := (rules.mem_spans_solve tripledBuilt
      (loopsOnly_tripled loops) options (apart placed otherPlaced)).mp answer
    exact ⟨above.start, above.stop, walk, placed, otherPlaced, joins, inside, accepted⟩
  · rintro ⟨pair, other, walk, placed, otherPlaced, joins, inside, accepted⟩
    exact ⟨different, ⟨pair, other⟩, (rules.mem_spans_solve tripledBuilt
      (loopsOnly_tripled loops) options (apart placed otherPlaced)).mpr
        ⟨walk, joins, inside, accepted⟩, 2, placed, otherPlaced, rfl⟩

end Tripled

/-- A flow around brackets that can be repeated, with a plain edge in front of it. -/
def flowCycle : List Edge :=
  [⟨3, 0, "normal"⟩, ⟨0, 1, "ob--1"⟩, ⟨1, 1, "ob--2"⟩, ⟨1, 1, "cb--2"⟩, ⟨1, 2, "cb--1"⟩]

/-- The flow is found, and the walk with the plain edge in front is none although its word is
accepted too. -/
theorem mem_projectFlows_solve_flowCycle :
    let graph := ofEdges flowCycle
    let grammar := balanced .bracket [1, 2] .parenthesis []
    graph.Built ∧ graph.LoopsOnly ∧ BracketGrammar grammar ∧
      (∃ path, AcceptedFlow graph grammar ⟨0, 2⟩ path) ∧
      ¬ (∃ path, AcceptedFlow graph grammar ⟨3, 2⟩ path) ∧
      ⟨3, 2⟩ ∈ (solve graph grammar {}).spans := by
  intro graph grammar
  have built : graph.Built := built_ofEdges flowCycle
  have loops : graph.LoopsOnly := loopsOnly_ofEdges (by decide)
  have bracket : BracketGrammar grammar := .balanced .bracket [1, 2] .parenthesis []
  obtain ⟨_, answers⟩ := mem_projectFlows_solve built loops bracket {}
  exact ⟨built, loops, bracket, (answers ⟨0, 2⟩ (by decide)).mp (by decide +kernel),
    fun flow => absurd ((answers ⟨3, 2⟩ (by decide)).mpr flow) (by decide +kernel),
    by decide +kernel⟩

end Graph

end GrammarReach
