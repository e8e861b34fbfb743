import GrammarReach.Proofs.Analysis.CondensedAnswers
import GrammarReach.Proofs.Bracket.SupportedWalks

/-!
# Merging changes no answer

A graph with its own ids is condensed by the interleaved spans found on it.  Each grammar
over these ids accepts words that can be padded with interleaved words.  So its walks on
the graph and on the condensation correspond: one way by moving every edge to the
representatives of its ends, the other way with interleaved walks inside the groups.  Only a
parity grammar with more classes than a machine word counts does not allow for padding.
-/

namespace GrammarReach

open BracketLanguage

/-! ## Grammars that answer walks -/

/-- Over every graph that the ids are proper for, the grammar derives the spans of walks
with an accepted word. -/
structure AnswersWalks (component : BracketComponent) (grammar : Grammar)
    (accepts : List Label → Prop) : Prop where
  arities : grammar.HasArities arityOf
  sound : ∀ {graph : Graph}, (⟨component.ids, graph⟩ : BracketComponent).Proper →
    ∀ {span used}, grammar.Derives graph Grammar.startName [span] used →
      ∃ path, WalkWithin graph.edgeSet accepts span path
  complete : ∀ {graph : Graph}, (⟨component.ids, graph⟩ : BracketComponent).Proper →
    ∀ {span path}, span.start ∈ graph.vertices → WalkWithin graph.edgeSet accepts span path →
      ∃ used, grammar.Derives graph Grammar.startName [span] used

/-- Padding with labels of the component keeps words accepted. -/
def KeepsPadding (component : BracketComponent) (accepts : List Label → Prop) : Prop :=
  ∀ core word, accepts core → Padded core word →
    (∀ label ∈ word, label ∈ wordOf component.graph.labelledEdges) → accepts word

section Kinds

variable {component : BracketComponent}

theorem answersWalks_balancing (proper : component.Proper)
    (distinct : ∀ family, (component.ids.ofFamily family).Nodup)
    (choice : GrammarChoice) (family : BracketFamily) :
    AnswersWalks component (choice.balancing family component.ids)
      (choice.acceptance component.ids family) where
  arities := (choice.matching_balancing family component.ids).shape.hasArities
  sound := by
    intro graph isProper span used derives
    obtain ⟨path, joins, inside, _, word, accepts⟩ :=
      exists_walk_of_derives_balancing proper.bounded (distinct family.other) derives
    refine ⟨withoutEpsilon path, joins_withoutEpsilon isProper.loops joins inside, ?_, ?_⟩
    · intro edge member
      obtain ⟨onPath, labelled⟩ := List.mem_filter.mp member
      exact Graph.mem_labelledEdges.mpr ⟨inside edge onPath, by simpa using labelled⟩
    · rw [wordOf_withoutEpsilon]
      refine ⟨accepts.filter_ne_epsilon, fun label member => ?_⟩
      obtain ⟨inWord, labelled⟩ := List.mem_filter.mp member
      exact (word.covered label inWord).resolve_right (by simpa using labelled)
  complete := by
    intro graph isProper span path start walk
    obtain ⟨accepts, covered⟩ := walk.accepted
    obtain ⟨used, derives, _⟩ := derives_balancing_of_walk proper.bounded
      (distinct family.other) isProper.built walk.joins
      (fun edge onPath => (Graph.mem_labelledEdges.mp (walk.inside edge onPath)).1) start
      covered accepts
    exact ⟨used, derives⟩

theorem keepsPadding_balancing (proper : component.Proper) {choice : GrammarChoice}
    (fits : choice.WithinWord) (family : BracketFamily) :
    KeepsPadding component (choice.acceptance component.ids family) := by
  rintro core word ⟨accepts, covered⟩ padding occurs
  exact ⟨accepts.padded fits padding, proper.covers_of_padded padding covered occurs⟩

theorem answersWalks_interleaved :
    AnswersWalks component (interleaved component.ids)
      fun word => word = [] ∨ Interleaved word where
  arities := (matching_interleaved component.ids).shape.hasArities
  sound := by
    intro graph isProper span used derives
    by_cases reflexive : span.start = span.stop
    · exact ⟨[], reflexive, by simp, .inl rfl⟩
    · obtain ⟨path, walk⟩ := exists_interleavedWalk isProper derives
        (Span.irreflexive_iff.mpr reflexive)
      exact ⟨path, walk.joins, walk.inside, .inr walk.interleaved⟩
  complete := by
    intro graph isProper span path start walk
    rcases walk.accepted with none | interleaved
    · have loop := isProper.built.closed.loop_mem span.start start
      have epsilon := (silentGrammar_interleaved component.ids).epsilon
      have derives := Grammar.Derives.basic epsilon loop rfl
      obtain rfl := List.map_eq_nil_iff.mp none
      have reflexive : (⟨span.start, span.start⟩ : Span) = span :=
        congrArg (Span.mk span.start) walk.joins
      exact ⟨_, reflexive ▸ derives⟩
    · exact derives_of_interleavedWalk isProper ⟨walk.joins, walk.inside, interleaved⟩

end Kinds

/-- The kinds of grammars that a graph is solved with: they balance a family, count the
other one as well, or match both in one stack. -/
inductive GrammarKind where
  | balanced (family : BracketFamily)
  | parity (family : BracketFamily) (classCount : Nat)
  | interleaved
deriving DecidableEq, Repr

namespace GrammarKind

/-- The grammar of a kind over given ids. -/
def grammar (ids : BracketIds) : GrammarKind → Grammar
  | .balanced family => balancedOver family ids
  | .parity family classCount => parityOver family ids classCount
  | .interleaved => BracketLanguage.interleaved ids

/-- The classes that are counted fit into a machine word. -/
def WithinWord : GrammarKind → Prop
  | .balanced _ => True
  | .parity _ classCount => classCount < Text.wordBits
  | .interleaved => True

theorem exists_answersWalks {component : BracketComponent} (kind : GrammarKind)
    (proper : component.Proper)
    (distinct : ∀ family, (component.ids.ofFamily family).Nodup) :
    ∃ accepts, AnswersWalks component (kind.grammar component.ids) accepts ∧
      (kind.WithinWord → KeepsPadding component accepts) := by
  cases kind with
  | balanced family =>
      let choice : GrammarChoice := { mode := .classic }
      have fits : choice.WithinWord := fun augmented => nomatch augmented
      exact ⟨_, answersWalks_balancing proper distinct choice family,
        fun _ => keepsPadding_balancing proper fits family⟩
  | parity family classCount =>
      let choice : GrammarChoice := { mode := .augmented, parityClasses := classCount }
      refine ⟨_, answersWalks_balancing proper distinct choice family, fun fits => ?_⟩
      have choiceFits : choice.WithinWord := fun _ => fits
      exact keepsPadding_balancing proper choiceFits family
  | interleaved =>
      exact ⟨_, answersWalks_interleaved,
        fun _ _ _ accepted padding _ => Interleaved.padded accepted padding⟩

end GrammarKind

/-! ## The condensation -/

/-- The vertex is an end of an edge that is not an epsilon edge. -/
def Graph.Touches (graph : Graph) (vertex : Vertex) : Prop :=
  ∃ edge ∈ graph.labelledEdges, vertex = edge.source ∨ vertex = edge.target

theorem Graph.Touches.mem_vertices {graph : Graph} (built : graph.Built) {vertex : Vertex}
    (touches : graph.Touches vertex) : vertex ∈ graph.vertices := by
  obtain ⟨edge, member, rfl | rfl⟩ := touches
  · exact built.closed.source_mem edge (Graph.mem_labelledEdges.mp member).1
  · exact built.closed.target_mem edge (Graph.mem_labelledEdges.mp member).1

section Condensed

variable {component : BracketComponent} {condensation : Condensation}
  (merges : condensation.Merges component.graph component.graph.MutuallyJoined)
  (covers : condensation.Covers component.graph)
  {grammar : Grammar} {accepts : List Label → Prop} {start stop : Vertex}

include covers in
private theorem exists_lifted_walk {path : List Edge}
    (walk : WalkWithin component.graph.edgeSet accepts ⟨start, stop⟩ path) :
    ∃ lifted, WalkWithin condensation.graph.edgeSet accepts
      (condensation.lift ⟨start, stop⟩) lifted := by
  have sameWord : wordOf (path.map condensation.liftEdge) = wordOf path := by
    simp [wordOf, Condensation.liftEdge]
  refine ⟨path.map condensation.liftEdge, walk.joins.map condensation.representative,
    fun lifted member => ?_,
    sameWord ▸ walk.accepted⟩
  obtain ⟨edge, onPath, rfl⟩ := List.mem_map.mp member
  exact covers.lifts edge (walk.inside edge onPath)

include merges in
private theorem exists_walk_below (keeps : KeepsPadding component accepts)
    {path : List Edge} (walk : WalkWithin condensation.graph.edgeSet accepts
      (condensation.lift ⟨start, stop⟩) path) :
    ∃ lower, WalkWithin component.graph.edgeSet accepts ⟨start, stop⟩ lower := by
  have equivalence := equivalence_mutuallyJoined component.graph
  obtain ⟨lower, below⟩ := Condensation.exists_lowered_walk merges (fun _ member => member)
    walk.joins walk.inside (equivalence.symm (merges.representative start))
    (merges.representative stop)
  have inside : ∀ edge ∈ lower, edge ∈ component.graph.labelledEdges := fun edge onPath =>
    Condensation.lowered_subset _ _ _ (below.inside edge onPath)
  exact ⟨lower, below.joins, inside,
    keeps _ _ walk.accepted below.accepted fun _ => wordOf_subset inside⟩

include merges in
theorem BracketComponent.Proper.condensed (proper : component.Proper)
    (built : condensation.graph.Built) (loops : condensation.graph.LoopsOnly) :
    (⟨component.ids, condensation.graph⟩ : BracketComponent).Proper := by
  refine proper.onGraph built loops fun label member => ?_
  obtain ⟨edge, lifted, rfl⟩ := List.mem_map.mp member
  obtain ⟨original, labelled, rfl⟩ := merges.lifted edge lifted
  exact List.mem_map.mpr ⟨original, labelled, rfl⟩

include merges covers in
/-- The condensation answers the span of the representatives when the graph answers the
span, and only then when padding keeps words accepted. -/
theorem AnswersWalks.mem_spans_lift (answers : AnswersWalks component grammar accepts)
    (proper : component.Proper) (loops : condensation.graph.LoopsOnly)
    (touches : component.graph.Touches start) (options : SolveOptions) :
    (⟨start, stop⟩ ∈ (solve component.graph grammar options).spans →
      condensation.lift ⟨start, stop⟩ ∈ (solve condensation.graph grammar options).spans) ∧
    (KeepsPadding component accepts →
      condensation.lift ⟨start, stop⟩ ∈ (solve condensation.graph grammar options).spans →
        ⟨start, stop⟩ ∈ (solve component.graph grammar options).spans) := by
  have condensed := proper.condensed merges covers.built loops
  have lifted : condensation.graph.Touches (condensation.representative start) := by
    obtain ⟨edge, member, rfl | rfl⟩ := touches
    · exact ⟨_, covers.lifts edge member, .inl rfl⟩
    · exact ⟨_, covers.lifts edge member, .inr rfl⟩
  rw [mem_spans_solve covers.built answers.arities, mem_spans_solve proper.built answers.arities]
  constructor
  · rintro ⟨used, derives⟩
    obtain ⟨path, walk⟩ := answers.sound proper derives
    obtain ⟨higher, above⟩ := exists_lifted_walk covers walk
    exact answers.complete condensed (lifted.mem_vertices covers.built) above
  · rintro keeps ⟨used, derives⟩
    obtain ⟨path, walk⟩ := answers.sound condensed derives
    obtain ⟨lower, below⟩ := exists_walk_below merges keeps walk
    exact answers.complete proper (touches.mem_vertices proper.built) below

theorem Condensation.Merges.joined_of_members
    (merges : condensation.Merges component.graph component.graph.MutuallyJoined)
    {representative first second : Vertex}
    (firstMember : first ∈ condensation.members representative)
    (secondMember : second ∈ condensation.members representative)
    (different : first ≠ second) :
    ∃ path, InterleavedWalk component.graph ⟨first, second⟩ path := by
  have equivalence := equivalence_mutuallyJoined component.graph
  have joined := equivalence.trans (equivalence.symm (merges.members _ _ firstMember))
    (merges.members _ _ secondMember)
  exact (joined.resolve_left different).1

end Condensed

/-- A graph condensed by the interleaved spans found with its own ids: each grammar over
these ids answers the span of two representatives when it answers the span of the vertices
themselves, and only then if its classes fit into a machine word.  The members of a group are
known to be joined. -/
theorem BracketComponent.condensation_answers_alike {component : BracketComponent}
    (built : component.graph.Built) (loops : component.graph.LoopsOnly)
    (knows : component.KnowsGraph) :
    (∀ (kind : GrammarKind) (options : SolveOptions),
      SolveEnds component.graph (kind.grammar component.ids) options ∧
      SolveEnds component.condensation.graph (kind.grammar component.ids) options ∧
      ∀ start stop, component.graph.Touches start → component.graph.Touches stop →
        (⟨start, stop⟩ ∈ (solve component.graph (kind.grammar component.ids) options).spans →
          component.condensation.lift ⟨start, stop⟩ ∈
            (solve component.condensation.graph (kind.grammar component.ids) options).spans) ∧
        (kind.WithinWord →
          component.condensation.lift ⟨start, stop⟩ ∈
            (solve component.condensation.graph (kind.grammar component.ids) options).spans →
          ⟨start, stop⟩ ∈ (solve component.graph (kind.grammar component.ids) options).spans)) ∧
      ∀ representative, ∀ first ∈ component.condensation.members representative,
        ∀ second ∈ component.condensation.members representative, first ≠ second →
          ⟨first, second⟩ ∈ component.interleavedSpans := by
  have proper := knows.proper built loops
  have merges := component.merges_condensation proper
  have covers : component.condensation.Covers component.graph := Condensation.covers_ofKnown _ _
  have noEpsilon : component.condensation.graph.LoopsOnly := Condensation.loopsOnly_ofKnown _ _
  have spans := fun span => @mem_interleavedSpans component span proper
  generalize component.interleavedSpans = interleaved at spans ⊢
  generalize component.condensation = condensation at merges covers noEpsilon ⊢
  refine ⟨fun kind options => ?_, fun representative first firstMember second secondMember
    different => ?_⟩
  · obtain ⟨accepts, answers, keeps⟩ := kind.exists_answersWalks proper knows.distinct
    refine ⟨answers.arities.solveEnds built options,
      answers.arities.solveEnds covers.built options, fun start stop touches _ => ?_⟩
    have alike := @AnswersWalks.mem_spans_lift _ _ merges covers _ _ start stop answers proper
      noEpsilon touches options
    exact ⟨alike.1, fun fits => alike.2 (keeps fits)⟩
  · exact (spans _).mpr
      ⟨different, merges.joined_of_members firstMember secondMember different⟩

/-- A detour over a matched bracket and the way back join two vertices between a pair of
parentheses. -/
def detour : BracketComponent where
  ids := { parenthesis := [1], bracket := [1] }
  graph := .ofEdges [⟨2, 0, "op--1"⟩, ⟨0, 4, "ob--1"⟩, ⟨4, 1, "cb--1"⟩, ⟨1, 0, "normal"⟩,
    ⟨1, 3, "cp--1"⟩]

namespace BracketComponent

private theorem knowsGraph_detour :
    detour.graph.Built ∧ detour.graph.LoopsOnly ∧ detour.KnowsGraph :=
  ⟨Graph.built_ofEdges _, Graph.loopsOnly_ofEdges (by decide), .inr (by decide +kernel)⟩

private theorem touches_detour : detour.graph.Touches 2 ∧ detour.graph.Touches 3 :=
  ⟨⟨⟨2, 0, "op--1"⟩, Graph.mem_labelledEdges_ofEdges.mpr (by decide), .inl rfl⟩,
    ⟨⟨1, 3, "cp--1"⟩, Graph.mem_labelledEdges_ofEdges.mpr (by decide), .inr rfl⟩⟩

/-- The detour is merged away, and the parentheses around it are answered on the condensation
just as on the graph, also when the brackets are counted. -/
theorem condensation_answers_alike_detour :
    (detour.graph.Built ∧ detour.graph.LoopsOnly ∧ detour.KnowsGraph) ∧
      (detour.graph.Touches 2 ∧ detour.graph.Touches 3) ∧
      detour.condensation.representative 0 = detour.condensation.representative 1 ∧
      ⟨0, 1⟩ ∈ detour.interleavedSpans ∧
      (GrammarKind.parity .parenthesis 1).WithinWord ∧
      detour.condensation.lift ⟨2, 3⟩ ∈ (solve detour.condensation.graph
        ((GrammarKind.parity .parenthesis 1).grammar detour.ids) {}).spans ∧
      ⟨2, 3⟩ ∈ (solve detour.graph
        ((GrammarKind.parity .parenthesis 1).grammar detour.ids) {}).spans := by
  obtain ⟨built, loops, knows⟩ := knowsGraph_detour
  obtain ⟨first, last⟩ := touches_detour
  have fits : (GrammarKind.parity .parenthesis 1).WithinWord := by
    unfold GrammarKind.WithinWord
    decide
  have merged : detour.condensation.representative 0 = detour.condensation.representative 1 ∧
      0 ∈ detour.condensation.members (detour.condensation.representative 0) ∧
      1 ∈ detour.condensation.members (detour.condensation.representative 0) := by
    decide +kernel
  have answered : detour.condensation.lift ⟨2, 3⟩ ∈ (solve detour.condensation.graph
      ((GrammarKind.parity .parenthesis 1).grammar detour.ids) {}).spans := by
    decide +kernel
  obtain ⟨alike, joined⟩ := BracketComponent.condensation_answers_alike built loops knows
  obtain ⟨same, firstMember, secondMember⟩ := merged
  exact ⟨⟨built, loops, knows⟩, ⟨first, last⟩, same,
    joined _ 0 firstMember 1 secondMember (by decide), fits, answered,
    ((alike (.parity .parenthesis 1) {}).2.2 2 3 first last).2 fits answered⟩

/-- With as many classes as a machine word has digits no bracket may pass, so the parentheses
are answered only on the condensation, where the detour is merged away. -/
theorem not_alike_detour :
    (detour.graph.Built ∧ detour.graph.LoopsOnly ∧ detour.KnowsGraph) ∧
      (detour.graph.Touches 2 ∧ detour.graph.Touches 3) ∧
      detour.condensation.lift ⟨2, 3⟩ ∈ (solve detour.condensation.graph
        ((GrammarKind.parity .parenthesis 64).grammar detour.ids) {}).spans ∧
      ⟨2, 3⟩ ∉ (solve detour.graph
        ((GrammarKind.parity .parenthesis 64).grammar detour.ids) {}).spans := by
  obtain ⟨built, loops, knows⟩ := knowsGraph_detour
  have answers : ∀ {graph : Graph}, graph.Built → ∀ span, span ∈ (solve graph
        ((GrammarKind.parity .parenthesis 64).grammar detour.ids) {}).spans ↔
      ∃ path, WordParityPath graph .parenthesis [1] [1] 64 span path := fun isBuilt =>
    (@mem_spans_solve_wordParity _ .parenthesis [1] [1] 64 isBuilt (by decide) (by decide)
      (by decide) (by decide) {}).2
  have condensed : detour.condensation.graph.Built := (Condensation.covers_ofKnown _ _).built
  refine ⟨⟨built, loops, knows⟩, touches_detour, (answers condensed _).mpr ?_, fun answered => ?_⟩
  · refine ⟨[⟨2, 0, "op--1"⟩, ⟨0, 3, "cp--1"⟩], ?_, ?_⟩
    · have lifted : detour.condensation.lift ⟨2, 3⟩ = ⟨2, 3⟩ := by decide +kernel
      rw [lifted]
      refine ⟨by decide, ⟨rfl, rfl, rfl⟩, by decide +kernel, ?_, .wrap 1 .nil .nil⟩
      unfold BalancedLabel
      decide
    · exact .nil
  · obtain ⟨path, ⟨_, joins, inside, _⟩, cancels⟩ := (answers built _).mp answered
    have noBracket := List.filterMap_eq_nil_iff.mp (cancels.eq_nil (by decide))
    have stays : ∀ edge ∈ detour.graph.edges,
        BracketFamily.bracket.bracketOf? edge.label = none →
          edge.source = 2 ∨ edge.source = 0 → edge.target = 2 ∨ edge.target = 0 := by
      decide +kernel
    have ends := joins.transport (fun vertex => vertex = 2 ∨ vertex = 0)
      (fun edge member => stays edge (inside edge member)
        (noBracket edge.label (List.mem_map_of_mem member))) (.inl rfl)
    exact absurd ends (by decide)

end BracketComponent

end GrammarReach
