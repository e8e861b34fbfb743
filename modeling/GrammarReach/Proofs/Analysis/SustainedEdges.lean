import GrammarReach.Proofs.Analysis.ExactRounds

/-!
# Sustained edges

A set of edges is sustained when each of its edges lies, for both bracket families, on an
accepted walk within the set.  Refinement of all pairs never loses such a set, whatever
else its graphs hold, as long as they do not change what is accepted.
-/

namespace GrammarReach

/-- The words that the side of a family accepts. -/
abbrev Acceptance := BracketFamily → List Label → Prop

/-- The words of known labels that the grammars accept for some ids. -/
def GrammarChoice.acceptance (choice : GrammarChoice) (ids : BracketIds) : Acceptance :=
  fun family word => choice.Accepts family ids word ∧ ∀ label ∈ word, ids.Covers label

/-- A walk along edges of a set whose word is accepted. -/
structure WalkWithin (kept : Set Edge) (accepts : List Label → Prop) (span : Span)
    (path : List Edge) : Prop where
  joins : Joins span.start path span.stop
  inside : ∀ edge ∈ path, edge ∈ kept
  accepted : accepts (wordOf path)

/-- Every edge of the set lies on accepted walks for both families between different
vertices, and in a value flow between a source and a sink. -/
structure Sustained (analysis : AnalysisFamily) (accepts : Acceptance) (kept : Set Edge) :
    Prop where
  canonical : ∀ edge ∈ kept, CanonicalLabel edge.label
  supported : ∀ family, ∀ edge ∈ kept, ∃ span path, span.isReflexive = false ∧
    WalkWithin kept (accepts family) span path ∧ edge ∈ path
  flows : analysis = .valueFlow → ∀ edge ∈ kept,
    Graph.InFlow kept edge.source ∧ Graph.InFlow kept edge.target

/-- Accepted walks for both families join the different ends of the span, and in a value
flow a wrapped walk does. -/
structure Answered (analysis : AnalysisFamily) (accepts : Acceptance) (kept : Set Edge)
    (span : Span) : Prop where
  irreflexive : span.isReflexive = false
  joined : ∀ family, ∃ path, WalkWithin kept (accepts family) span path
  wrapped : analysis = .valueFlow → ∃ path, WalkWithin kept BracketLanguage.Wrapped span path

/-- What is accepted is accepted by the grammars over every graph that holds the set and is
reduced to a part of the reduced input. -/
def Steady (choice : GrammarChoice) (input : Graph) (accepts : Acceptance) (kept : Set Edge) :
    Prop :=
  ∀ graph : Graph, kept ⊆ graph.edgeSet →
    graph.matchedBrackets.graph.edgeSet ⊆ input.matchedBrackets.graph.edgeSet →
    ∀ family word, accepts family word →
      choice.Accepts family graph.matchedBrackets.ids word

section Walks

variable {kept more : Set Edge} {accepts looser : List Label → Prop} {span : Span}
  {path : List Edge}

theorem WalkWithin.mono (walk : WalkWithin kept accepts span path) (sub : kept ⊆ more) :
    WalkWithin more accepts span path :=
  ⟨walk.joins, fun edge member => sub (walk.inside edge member), walk.accepted⟩

theorem WalkWithin.imp (walk : WalkWithin kept accepts span path)
    (weaker : ∀ word, accepts word → looser word) : WalkWithin kept looser span path :=
  ⟨walk.joins, walk.inside, weaker _ walk.accepted⟩

theorem WalkWithin.canonicalWalk {graph : Graph} (walk : WalkWithin kept accepts span path)
    (canonical : ∀ edge ∈ kept, CanonicalLabel edge.label) (inside : kept ⊆ graph.edgeSet) :
    CanonicalWalk graph span path where
  joins := walk.joins
  inside edge member := inside (walk.inside edge member)
  canonical label member := by
    obtain ⟨edge, onPath, rfl⟩ := List.mem_map.mp member
    exact canonical edge (walk.inside edge onPath)

theorem AcceptedWalk.within {choice : GrammarChoice} {family : BracketFamily}
    {component : BracketComponent} (walk : AcceptedWalk choice family component span path)
    (exact : component.Exact) :
    WalkWithin component.graph.edgeSet (choice.acceptance component.ids family) span path := by
  refine ⟨walk.joins, walk.inside, walk.accepted, fun label member => ?_⟩
  obtain ⟨edge, onPath, rfl⟩ := List.mem_map.mp member
  exact exact.covers edge (walk.inside edge onPath) (walk.canonical _ member)

end Walks

/-! ## Linked sustained edges -/

section Linked

variable {analysis : AnalysisFamily} {accepts looser : Acceptance} {kept : Set Edge}
  {vertex : Vertex} {span : Span}

theorem Sustained.imp (sustained : Sustained analysis accepts kept)
    (weaker : ∀ family word, accepts family word → looser family word) :
    Sustained analysis looser kept where
  canonical := sustained.canonical
  supported family edge member := by
    obtain ⟨span, path, irreflexive, walk, onPath⟩ := sustained.supported family edge member
    exact ⟨span, path, irreflexive, walk.imp (weaker family), onPath⟩
  flows := sustained.flows

theorem Answered.imp (answered : Answered analysis accepts kept span)
    (weaker : ∀ family word, accepts family word → looser family word) :
    Answered analysis looser kept span :=
  ⟨answered.irreflexive, fun family => (answered.joined family).imp fun _ walk =>
    walk.imp (weaker family), answered.wrapped⟩

private theorem inFlow_linkedEdges {other : Vertex} (between : Graph.InFlow kept other)
    (linked : Linked kept vertex other) : Graph.InFlow (linkedEdges kept vertex) other := by
  obtain ⟨opened, openedMember, closed, closedMember, isSource, isSink,
    ⟨before, beforeJoins, beforeInside⟩, behind, behindJoins, behindInside⟩ := between
  have first := linked_start_of_joins beforeJoins beforeInside linked
  have last : Linked kept vertex closed.source :=
    (linked.trans (linked_of_joins behindJoins behindInside).1).tail
      (touches_symm (touches_of_edge closedMember))
  exact ⟨opened, ⟨openedMember, first⟩, closed, ⟨closedMember, last⟩, isSource, isSink,
    ⟨before, beforeJoins, linkedEdges_of_linked beforeJoins beforeInside first⟩,
    behind, behindJoins, linkedEdges_of_linked behindJoins behindInside linked⟩

theorem Sustained.linked (sustained : Sustained analysis accepts kept) (vertex : Vertex) :
    Sustained analysis accepts (linkedEdges kept vertex) where
  canonical edge member := sustained.canonical edge member.1
  supported family edge member := by
    obtain ⟨span, path, irreflexive, walk, onPath⟩ := sustained.supported family edge member.1
    have inside := linkedEdges_of_mem walk.joins walk.inside onPath member
    exact ⟨span, path, irreflexive, ⟨walk.joins, inside, walk.accepted⟩, onPath⟩
  flows flow edge member := by
    obtain ⟨source, target⟩ := sustained.flows flow edge member.1
    have next := member.2.tail (touches_of_edge member.1)
    exact ⟨inFlow_linkedEdges source member.2, inFlow_linkedEdges target next⟩

theorem Answered.linked (answered : Answered analysis accepts kept span) :
    Answered analysis accepts (linkedEdges kept span.start) span := by
  have within : ∀ {accepts : List Label → Prop} {path}, WalkWithin kept accepts span path →
      WalkWithin (linkedEdges kept span.start) accepts span path := fun walk =>
    ⟨walk.joins, linkedEdges_of_joins walk.joins walk.inside, walk.accepted⟩
  exact ⟨answered.irreflexive, fun family => (answered.joined family).imp fun _ => within,
    fun flow => (answered.wrapped flow).imp fun _ => within⟩

end Linked

/-! ## A round keeps sustained edges -/

section Rounds

variable {analysis : AnalysisFamily} {accepts : Acceptance} {kept : Set Edge}
  {choice : GrammarChoice} {input : Graph} {span : Span}

/-- The strict reduction keeps sustained edges, because both brackets of a pair occur on a
matched walk. -/
theorem Sustained.subset_matchedBrackets (sustained : Sustained analysis accepts kept)
    (matched : ∀ family word, accepts family word → family.Matched word) {graph : Graph}
    (inside : kept ⊆ graph.edgeSet) : kept ⊆ graph.matchedBrackets.graph.edgeSet := by
  intro edge member
  refine Graph.mem_labelledEdges_matchedBrackets.mpr ⟨inside member, ?_⟩
  apply Graph.keepsLabel_of_partners (sustained.canonical edge member)
  intro family id below spelled
  obtain ⟨span, path, _, walk, onPath⟩ := sustained.supported family edge member
  have onWord : edge.label ∈ wordOf path := List.mem_map.mpr ⟨edge, onPath, rfl⟩
  have occurs : family.openLabel id ∈ wordOf path ∨ family.closeLabel id ∈ wordOf path := by
    rcases spelled with same | same
    · exact Or.inl (same ▸ onWord)
    · exact Or.inr (same ▸ onWord)
  obtain ⟨opened, closed⟩ := (matched family _ walk.accepted).partners below occurs
  have sub : ∀ other ∈ path, other ∈ graph.labelledEdges :=
    fun other early => inside (walk.inside other early)
  exact ⟨wordOf_subset sub opened, wordOf_subset sub closed⟩

theorem Steady.acceptedWalk (steady : Steady choice input accepts kept)
    (sustained : Sustained analysis accepts kept) {graph : Graph}
    (inside : kept ⊆ graph.edgeSet)
    (within : graph.matchedBrackets.graph.edgeSet ⊆ input.matchedBrackets.graph.edgeSet)
    {family : BracketFamily} {path : List Edge}
    (walk : WalkWithin kept (accepts family) span path) :
    AcceptedWalk choice family graph.matchedBrackets span path := by
  have accepted := steady graph inside within
  have reduced := sustained.subset_matchedBrackets
    (fun family word known => (accepted family word known).matched) inside
  exact ⟨walk.canonicalWalk sustained.canonical reduced, accepted family _ walk.accepted⟩

variable {piece : Graph} (round : ExactRound choice none piece)
  (sustained : Sustained analysis accepts kept) (steady : Steady choice input accepts kept)
  (inside : kept ⊆ piece.edgeSet)
  (within : piece.matchedBrackets.graph.edgeSet ⊆ input.matchedBrackets.graph.edgeSet)

include sustained steady inside within

theorem Sustained.subset_middle : kept ⊆ round.middle.edgeSet := by
  intro edge member
  obtain ⟨span, path, irreflexive, walk, onPath⟩ :=
    sustained.supported choice.alphaFamily edge member
  exact round.mem_middle.mpr ⟨span, path, irreflexive, fits_none span,
    steady.acceptedWalk sustained inside within walk, onPath⟩

theorem Sustained.subset_support : kept ⊆ round.support.edgeSet := by
  have middle := sustained.subset_middle round steady inside within
  have sub := (Graph.matchedBrackets_subset _).trans (round.middle_subset.trans within)
  intro edge member
  obtain ⟨span, path, irreflexive, walk, onPath⟩ :=
    sustained.supported choice.alphaFamily.other edge member
  exact round.mem_support.mpr ⟨span, path, irreflexive, fits_none span,
    steady.acceptedWalk sustained middle sub walk, onPath⟩

theorem Sustained.subset_left : kept ⊆ (round.left analysis).edgeSet := by
  have support := sustained.subset_support round steady inside within
  have keeping : kept ⊆ (analysis.keeping round.support).edgeSet := by
    cases analysis with
    | taint => exact support
    | valueFlow =>
        intro edge member
        obtain ⟨source, target⟩ := sustained.flows rfl edge member
        exact (Graph.mem_keepFlows round.built_support round.loopsOnly_support).mpr
          ⟨support member, source.mono support, target.mono support⟩
  have matched := fun family word known => (steady piece inside within family word known).matched
  exact sustained.subset_matchedBrackets matched keeping

/-- A round answers what is answered along sustained edges, or keeps these edges. -/
theorem Sustained.keeps (answered : Answered analysis accepts kept span) :
    (round.finish analysis).Keeps span fun next => kept ⊆ next.edgeSet ∧
      next.matchedBrackets.graph.edgeSet ⊆ input.matchedBrackets.graph.edgeSet := by
  have middle := sustained.subset_middle round steady inside within
  have support := sustained.subset_support round steady inside within
  have sub := (Graph.matchedBrackets_subset _).trans (round.middle_subset.trans within)
  cases ended : round.finish analysis with
  | unreachable =>
      have proper : (Round.conclude analysis none piece.matchedBrackets.graph.edgeCount
          round.alphaSpans round.betaSpans round.support).Proper none _ :=
        Round.proper_conclude analysis
      unfold ExactRound.finish at ended
      rw [ended] at proper
      cases proper
  | shrunk next =>
      rw [ExactRound.of_shrunk ended]
      refine ⟨sustained.subset_left round steady inside within, ?_⟩
      exact (Graph.matchedBrackets_subset _).trans ((round.left_subset analysis).trans within)
  | converged spans =>
      obtain ⟨alphaPath, alphaWalk⟩ := answered.joined choice.alphaFamily
      obtain ⟨betaPath, betaWalk⟩ := answered.joined choice.alphaFamily.other
      refine ((ExactRound.of_converged ended).2 span).mpr
        ⟨?_, ?_, answered.irreflexive, fits_none span, ?_⟩
      · exact (round.alphaExact.mem_wanted round.alphaChosen answered.irreflexive).mpr
          ⟨fits_none span, alphaPath, steady.acceptedWalk sustained inside within alphaWalk⟩
      · exact (round.betaExact.mem_wanted round.betaChosen answered.irreflexive).mpr
          ⟨fits_none span, betaPath, steady.acceptedWalk sustained middle sub betaWalk⟩
      · intro flow
        obtain ⟨path, walk⟩ := answered.wrapped flow
        exact (Graph.mem_wrappedSpans round.built_support round.loopsOnly_support).mpr
          ⟨path, walk.canonicalWalk sustained.canonical support, walk.accepted⟩

end Rounds

/-! ## Refinement of all pairs -/

section Refinement

variable {settings : Settings} {accepts : Acceptance} {kept : Set Edge} {input : Graph}
  {span : Span}

/-- Sustained edges that hang together are kept in one graph until their span is
answered. -/
theorem Sustained.retaining (sustained : Sustained settings.family accepts kept)
    (answered : Answered settings.family accepts kept span)
    (connected : ConnectedAt kept span.start)
    (steady : Steady (settings.grammars settings.mode) input accepts kept) :
    Refinement.Retaining none (Session.Serves settings) span
      fun graph => kept ⊆ graph.edgeSet ∧
        graph.matchedBrackets.graph.edgeSet ⊆ input.matchedBrackets.graph.edgeSet := by
  obtain ⟨path, walk⟩ := answered.joined .parenthesis
  have some : path ≠ [] :=
    walk.joins.ne_nil (Span.irreflexive_iff.mp answered.irreflexive)
  constructor
  · exact fun serves run => run.serves serves
  · exact fun _ _ => rfl
  · rintro graph built ⟨inside, within⟩
    have canonicalWalk := walk.canonicalWalk sustained.canonical inside
    obtain ⟨piece, isPiece, inPiece⟩ :=
      Graph.exists_piece built (canonicalWalk.start_mem built some)
    refine ⟨⟨piece, List.mem_filterMap.mpr ⟨piece, isPiece, rfl⟩, ?_, ?_⟩, by simp⟩
    · exact Graph.subset_piece built isPiece inside connected inPiece
    · have sub := Graph.labelledEdges_sublist_of_mem_pieces isPiece
      exact fun edge member => within (Graph.matchedBrackets_subset_of_sublist sub edge member)
  · rintro part built ⟨inside, _⟩
    obtain ⟨edge, onPath⟩ := List.exists_mem_of_ne_nil path some
    exact built.isTrivial_of_labelled (inside (walk.inside edge onPath))
  · rintro session piece outcome serves _ ⟨inside, within⟩ run free
    rcases run.exact_or_misses serves free with ⟨_, isSome⟩ | ⟨round, ended⟩
    · cases isSome
    · rw [ended]
      exact sustained.keeps round steady inside within answered

theorem Sustained.mem_mutualRefinement (sustained : Sustained settings.family accepts kept)
    (answered : Answered settings.family accepts kept span)
    (connected : ConnectedAt kept span.start)
    (steady : Steady (settings.grammars settings.mode) input accepts kept)
    (built : input.Built) (inside : kept ⊆ input.edgeSet)
    (free : CollisionFree ((Session.ofSettings settings).mutualRefinement input none).2.asked) :
    span ∈ ((Session.ofSettings settings).mutualRefinement input none).1 :=
  (sustained.retaining answered connected steady).mem_mutualRefinement
    (Session.serves_ofSettings settings) built ⟨inside, subset_rfl⟩ free

end Refinement

end GrammarReach
