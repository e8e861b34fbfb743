import GrammarReach.Analysis.Approximation
import GrammarReach.Proofs.Analysis.Rounds
import GrammarReach.Proofs.Bracket.AutomatonRuns
import GrammarReach.Proofs.Bracket.InterleavedAnswers
import GrammarReach.Proofs.Graph.Pieces
import GrammarReach.Proofs.Graph.Restriction

/-!
# Cheap bounds

The intersection answers the confirmed spans and no others, and the lower bound of a taint
analysis answers the spans of interleaved walks.
-/

namespace GrammarReach

namespace Graph

theorem exists_activePiece {graph : Graph} (built : graph.Built) {span : Span}
    {path : List Edge} (walk : CanonicalWalk graph span path)
    (irreflexive : span.isReflexive = false) :
    ∃ piece ∈ graph.activePieces, ∀ {other}, CanonicalWalk graph span other →
      ∀ edge ∈ other, edge ∈ piece.labelledEdges := by
  have some := walk.ne_nil irreflexive
  obtain ⟨piece, isPiece, inPiece⟩ := exists_piece built (walk.start_mem built some)
  have within : ∀ {other}, CanonicalWalk graph span other →
      ∀ edge ∈ other, edge ∈ piece.labelledEdges := fun otherWalk =>
    (mem_piece_of_joins built isPiece otherWalk.joins otherWalk.inside inPiece).1
  obtain ⟨edge, onPath⟩ := List.exists_mem_of_ne_nil path some
  have active := (built_of_mem_pieces isPiece).isTrivial_of_labelled (within walk edge onPath)
  exact ⟨piece, List.mem_filter.mpr ⟨isPiece, by simp [active]⟩, within⟩

/-- The classic grammar of a family answers the ends of every walk with labels of its ids
along which the family matches. -/
theorem mem_spansOf_of_matched {graph : Graph} (built : graph.Built) {ids : BracketIds}
    (bounded : ids.Bounded) (choice : GrammarChoice) (classic : choice.mode = .classic)
    {family : BracketFamily} {start stop : Vertex} {path : List Edge}
    (joins : Joins start path stop) (inside : ∀ edge ∈ path, edge ∈ graph.edges)
    (known : start ∈ graph.vertices) (covered : ∀ label ∈ wordOf path, ids.Covers label)
    (matched : family.Matched (wordOf path)) :
    ⟨start, stop⟩ ∈ graph.spansOf (choice.balancing family ids) := by
  have matching := choice.matching_balancing family ids
  rw [spansOf, mem_spans_solve built matching.shape.hasArities]
  simp only [GrammarChoice.balancing, classic]
  obtain ⟨used, derives, _⟩ := BracketLanguage.derives_of_matched built
    (BracketLanguage.derivesMatched_balanced family ids bounded) matched joins inside known covered
  exact ⟨used, derives⟩

theorem covered_allBrackets {graph : Graph} {span : Span} {path : List Edge}
    (walk : CanonicalWalk graph span path) :
    ∀ label ∈ wordOf path, graph.allBrackets.ids.Covers label := by
  intro label member
  obtain ⟨edge, onPath, rfl⟩ := List.mem_map.mp member
  exact covers_allBrackets (walk.mem_edges onPath) (walk.canonical _ member)

/-- With all brackets of a graph the classic grammar of a family answers the spans of the
walks that are nested in the family. -/
theorem mem_spansOf_allBrackets {graph : Graph} {choice : GrammarChoice}
    (classic : choice.mode = .classic) {family : BracketFamily} {span : Span}
    (irreflexive : span.isReflexive = false) :
    span ∈ graph.allBrackets.graph.spansOf (choice.balancing family graph.allBrackets.ids) ↔
      ∃ path, NestedWalk family graph span path := by
  have proper := graph.proper_allBrackets
  have sub : ∀ edge, edge ∈ graph.allBrackets.graph.labelledEdges ↔ edge ∈ graph.labelledEdges :=
    fun edge => mem_labelledEdges_allBrackets
  constructor
  · intro member
    have matching := choice.matching_balancing family graph.allBrackets.ids
    obtain ⟨used, derives⟩ := (mem_spans_solve proper.built matching.shape.hasArities).mp member
    obtain ⟨path, walk, nested⟩ := matching.nestedWalk_of_derives proper derives
    have whole : NestedWalk family graph.allBrackets.graph span path := ⟨walk, nested family rfl⟩
    exact ⟨path, whole.mono fun edge => (sub edge).mp⟩
  · rintro ⟨path, whole⟩
    have walk := whole.mono fun edge => (sub edge).mpr
    exact mem_spansOf_of_matched proper.built proper.bounded choice classic walk.joins
      (fun _ member => walk.mem_edges member)
      (walk.start_mem proper.built (walk.ne_nil irreflexive))
      (covered_allBrackets whole.toCanonicalWalk)
      (BracketFamily.wellNested_only_iff.mp walk.nested)

end Graph

namespace Approximation

/-! ## The regularization -/

section Regularization

variable {settings : Settings} {graph : Graph} {span : Span} {path : List Edge}

theorem mem_unite {sets : List SpanSet} : span ∈ unite sets ↔ ∃ set ∈ sets, span ∈ set := by
  have general : ∀ all : SpanSet,
      span ∈ sets.foldl (fun all set => all.insertMany set.toList) all ↔
        span ∈ all ∨ ∃ set ∈ sets, span ∈ set := by
    induction sets with
    | nil => simp
    | cons set sets induction =>
        intro all
        rw [List.foldl_cons, induction, Std.TreeSet.mem_insertMany_list, List.contains_iff_mem,
          Std.TreeSet.mem_toList, List.exists_mem_cons_iff, or_assoc]
  rw [unite, general]
  simp

/-- The automaton that checks the second family for some ids. -/
def automaton (settings : Settings) (ids : BracketIds) : BracketAutomaton :=
  ⟨settings.family, settings.alphaFamily.other, ids.ofFamily settings.alphaFamily.other⟩

/-- A walk that the automaton accepts and that shows a word in which the first family
matches. -/
structure RegularWalk (settings : Settings) (ids : BracketIds) (graph : Graph) (span : Span)
    (path : List Edge) : Prop where
  joins : Joins span.start path span.stop
  inside : ∀ edge ∈ path, edge ∈ graph.labelledEdges
  accepted : ∃ last, LayeredGraph.Run (automaton settings ids).copies 0 path
      ((wordOf path).map (automaton settings ids).shown) last ∧
    BracketAutomaton.accepts settings.family (automaton settings ids).states last = true
  canonical : ∀ label ∈ (wordOf path).map (automaton settings ids).shown, CanonicalLabel label
  matched : settings.alphaFamily.Matched ((wordOf path).map (automaton settings ids).shown)

/-- The product of a piece with its automaton, with the ids of the piece. -/
private def product (settings : Settings) (piece : Graph) : BracketComponent where
  ids := piece.allBrackets.ids
  graph := ((automaton settings piece.allBrackets.ids).product piece.allBrackets.graph).graph

private theorem covers_product {piece : Graph} {edge : Edge}
    (member : edge ∈ (product settings piece).graph.labelledEdges)
    (canonical : CanonicalLabel edge.label) : piece.allBrackets.ids.Covers edge.label := by
  obtain ⟨original, inside, noLoop, first, next, copy, _⟩ :=
    LayeredGraph.exists_copy (automaton settings piece.allBrackets.ids).bounded_copies member
  have shows := BracketAutomaton.label_of_copies copy
  simp only at shows
  unfold BracketAutomaton.shown at shows
  split at shows
  · exact Or.inl shows
  · have labelled : original.isEpsilon = false := by
      simpa [Edge.isEpsilon, ← shows] using canonical.ne_epsilon
    have inPiece := Graph.mem_labelledEdges.mp
      (Graph.mem_labelledEdges_allBrackets.mp (Graph.mem_labelledEdges.mpr ⟨inside, labelled⟩))
    rw [shows] at canonical ⊢
    exact Graph.covers_allBrackets inPiece.1 canonical

private theorem proper_product (settings : Settings) (piece : Graph) :
    (product settings piece).Proper where
  built := LayeredGraph.built_ofCopies
  loops := by
    refine LayeredGraph.loopsOnly_ofCopies fun edge member noLoop copy isCopy => ?_
    rw [BracketAutomaton.label_of_copies isCopy, Ne, BracketAutomaton.shown_eq_epsilon]
    simpa [Edge.isEpsilon] using piece.proper_allBrackets.loops.isEpsilon_eq_false member noLoop
  bounded := piece.proper_allBrackets.bounded
  partners family id below opened _ := by
    obtain ⟨edge, member, spelled⟩ := List.mem_map.mp opened
    have covers := covers_product member (spelled ▸ .opening family below)
    rw [spelled] at covers
    exact covers.mem_of_open piece.proper_allBrackets.bounded

private theorem regularizePiece_eq (settings : Settings) (piece : Graph) :
    regularizePiece settings piece =
      ((automaton settings piece.allBrackets.ids).product piece.allBrackets.graph).project
        ((product settings piece).graph.spansOf ((settings.grammars .classic).balancing
          settings.alphaFamily piece.allBrackets.ids)) 0
        (BracketAutomaton.accepts settings.family
          (automaton settings piece.allBrackets.ids).states) := by
  have layers : ((automaton settings piece.allBrackets.ids).product
      piece.allBrackets.graph).layers = (automaton settings piece.allBrackets.ids).states := by
    have states := (automaton settings piece.allBrackets.ids).states_pos
    rw [BracketAutomaton.product_eq, LayeredGraph.layers_ofCopies]
    omega
  rw [← layers]
  rfl

private theorem RegularWalk.mem_regularizePiece
    (walk : RegularWalk settings graph.allBrackets.ids graph span path)
    (irreflexive : span.isReflexive = false) : span ∈ regularizePiece settings graph := by
  have different := Span.irreflexive_iff.mp irreflexive
  have proper := graph.proper_allBrackets
  have inside : ∀ edge ∈ path, edge ∈ graph.allBrackets.graph.labelledEdges :=
    fun edge member => Graph.mem_labelledEdges_allBrackets.mpr (walk.inside edge member)
  have known : span.start ∈ graph.allBrackets.graph.vertices := by
    have joins := walk.joins
    cases path with
    | nil => exact absurd joins different
    | cons edge path =>
        rw [← joins.1]
        exact proper.built.closed.source_mem edge
          (Graph.mem_labelledEdges.mp (inside edge (by simp))).1
  obtain ⟨last, run, accepted⟩ := walk.accepted
  obtain ⟨pair, other, above, placed, otherPlaced, joins, aboveInside, spelled⟩ :=
    LayeredGraph.exists_walk_above proper.built
      (automaton settings graph.allBrackets.ids).bounded_copies run
      (fun label member => (walk.canonical label member).ne_epsilon) walk.joins inside known
      (BracketAutomaton.states_pos _)
  have aboveWalk : CanonicalWalk (product settings graph).graph ⟨pair, other⟩ above :=
    ⟨joins, aboveInside, spelled ▸ walk.canonical⟩
  have covered : ∀ label ∈ wordOf above, graph.allBrackets.ids.Covers label := by
    intro label member
    obtain ⟨edge, onPath, rfl⟩ := List.mem_map.mp member
    exact covers_product (aboveInside edge onPath) (aboveWalk.canonical _ member)
  have aboveSome : above ≠ [] := by
    rintro rfl
    rw [wordOf_nil, eq_comm, List.map_eq_nil_iff, wordOf, List.map_eq_nil_iff] at spelled
    rw [spelled] at walk
    exact different walk.joins
  have productProper := proper_product settings graph
  have answered := Graph.mem_spansOf_of_matched productProper.built proper.bounded
    (settings.grammars .classic) rfl joins (fun _ member => aboveWalk.mem_edges member)
    (aboveWalk.start_mem productProper.built aboveSome) covered (spelled ▸ walk.matched)
  rw [regularizePiece_eq]
  exact LayeredGraph.mem_project.mpr ⟨different, _, answered, last, placed, otherPlaced, accepted⟩

/-- With the automaton in place of the second grammar a piece is answered by the walks that
the automaton accepts. -/
theorem mem_regularizePiece : span ∈ regularizePiece settings graph ↔
    span.isReflexive = false ∧
      ∃ path, RegularWalk settings graph.allBrackets.ids graph span path := by
  constructor
  · intro member
    rw [regularizePiece_eq] at member
    obtain ⟨different, above, answered, last, placed, otherPlaced, accepted⟩ :=
      LayeredGraph.mem_project.mp member
    have proper := proper_product settings graph
    have matching := (settings.grammars .classic).matching_balancing settings.alphaFamily
      graph.allBrackets.ids
    obtain ⟨used, derives⟩ :=
      (mem_spans_solve proper.built matching.shape.hasArities).mp answered
    obtain ⟨walk, canonical, nested⟩ := matching.nestedWalk_of_derives proper derives
    obtain ⟨stop, ends, path, stopPlaced, joins, inside, run⟩ :=
      LayeredGraph.exists_run (automaton settings graph.allBrackets.ids).bounded_copies
        canonical.joins canonical.inside placed
    cases stopPlaced.symm.trans otherPlaced
    have spelled := BracketAutomaton.word_of_run run
    have shown := canonical.canonical
    have matched := BracketFamily.wellNested_only_iff.mp (nested settings.alphaFamily rfl)
    rw [spelled] at run shown matched
    refine ⟨Span.irreflexive_iff.mpr different, path, joins, fun edge onPath => ?_,
      ⟨_, run, accepted⟩, shown, matched⟩
    refine Graph.mem_labelledEdges_allBrackets.mp
      (Graph.mem_labelledEdges.mpr ⟨inside edge onPath, ?_⟩)
    have visible := (shown _ (List.mem_map_of_mem (List.mem_map_of_mem onPath))).ne_epsilon
    rw [Ne, BracketAutomaton.shown_eq_epsilon] at visible
    simpa [Edge.isEpsilon] using visible
  · rintro ⟨irreflexive, path, walk⟩
    exact walk.mem_regularizePiece irreflexive

/-- A walk along which both families match is answered with the automaton in place of the
second grammar. -/
theorem mem_regularizePiece_of_walk (taint : settings.family = .taint)
    (walk : BalancedWalk .taint graph span path) (irreflexive : span.isReflexive = false) :
    span ∈ regularizePiece settings graph := by
  have isTaint : (automaton settings graph.allBrackets.ids).analysis = .taint := taint
  obtain ⟨last, ends, run⟩ := BracketAutomaton.exists_run_of_matched isTaint
    (walk.matched settings.alphaFamily.other) rfl (BracketAutomaton.states_pos _)
  have accepted := (BracketAutomaton.accepts_iff_of_taint isTaint).mpr ends
  refine mem_regularizePiece.mpr ⟨irreflexive, path, walk.joins, walk.inside,
    ⟨last, run, accepted⟩, fun label member => ?_, ?_⟩
  · obtain ⟨original, inWord, rfl⟩ := List.mem_map.mp member
    unfold BracketAutomaton.shown
    split
    · exact .normal
    · exact walk.canonical original inWord
  · exact BracketAutomaton.matched_shown (settings.alphaFamily.other_ne.symm)
      (walk.matched settings.alphaFamily)

theorem mem_regularization_of_walk (taint : settings.family = .taint) (built : graph.Built)
    (walk : BalancedWalk .taint graph span path) (irreflexive : span.isReflexive = false) :
    span ∈ regularization settings graph := by
  obtain ⟨piece, active, inPiece⟩ :=
    Graph.exists_activePiece built walk.toCanonicalWalk irreflexive
  exact mem_unite.mpr ⟨_, List.mem_map.mpr ⟨piece, active, rfl⟩,
    mem_regularizePiece_of_walk taint (walk.within (inPiece walk.toCanonicalWalk)) irreflexive⟩

end Regularization

/-! ## The intersection -/

section Piece

variable {settings : Settings} {piece : Graph} {span : Span}

private theorem alpha_intersectPiece (settings : Settings) (piece : Graph) :
    (intersectPiece settings piece).alpha = piece.allBrackets.graph.spansOf
      ((settings.grammars .classic).balancing settings.alphaFamily piece.allBrackets.ids) := by
  simp only [intersectPiece, GrammarChoice.alpha, Settings.grammars]

/-- The graph that the second grammar of the intersection runs on. -/
private def restricted (settings : Settings) (piece : Graph) : Graph :=
  piece.allBrackets.graph.restrictTo (intersectPiece settings piece).alpha

private theorem beta_intersectPiece (settings : Settings) (piece : Graph) :
    (intersectPiece settings piece).beta = (restricted settings piece).allBrackets.graph.spansOf
      ((settings.grammars .classic).balancing settings.alphaFamily.other
        (restricted settings piece).allBrackets.ids) := by
  simp only [restricted, intersectPiece, GrammarChoice.beta, Settings.grammars]

private theorem wrapped_intersectPiece (piece : Graph) (flow : settings.family = .valueFlow) :
    (intersectPiece settings piece).wrapped =
      piece.filterWrapped (intersectPiece settings piece).beta := by
  simp only [intersectPiece, flow]

theorem mem_alpha_intersectPiece (irreflexive : span.isReflexive = false) :
    span ∈ (intersectPiece settings piece).alpha ↔
      ∃ path, NestedWalk settings.alphaFamily piece span path := by
  rw [alpha_intersectPiece]
  exact Graph.mem_spansOf_allBrackets rfl irreflexive

theorem exists_betaWalk (irreflexive : span.isReflexive = false)
    (member : span ∈ (intersectPiece settings piece).beta) :
    ∃ path, NestedWalk settings.alphaFamily.other piece span path := by
  rw [beta_intersectPiece, Graph.mem_spansOf_allBrackets rfl irreflexive] at member
  exact member.imp fun path walk => walk.mono fun edge inside =>
    Graph.mem_labelledEdges_allBrackets.mp (Graph.labelledEdges_of_restrictTo inside)

/-- The cut between the answers of the first grammar keeps every walk of such an answer, so
the second grammar misses nothing there. -/
theorem mem_beta_intersectPiece (irreflexive : span.isReflexive = false)
    (alpha : span ∈ (intersectPiece settings piece).alpha) :
    span ∈ (intersectPiece settings piece).beta ↔
      ∃ path, NestedWalk settings.alphaFamily.other piece span path := by
  refine ⟨exists_betaWalk irreflexive, ?_⟩
  rintro ⟨path, walk⟩
  rw [beta_intersectPiece, Graph.mem_spansOf_allBrackets rfl irreflexive]
  have whole := walk.mono fun _ => Graph.mem_labelledEdges_allBrackets.mpr
  exact ⟨path, whole.within (Graph.mem_restrictTo_of_joins piece.proper_allBrackets.built alpha
    whole.joins whole.inside), walk.nested⟩

theorem mem_wrapped_intersectPiece (flow : settings.family = .valueFlow) (built : piece.Built)
    (loops : piece.LoopsOnly) :
    span ∈ (intersectPiece settings piece).wrapped ↔
      span ∈ (intersectPiece settings piece).beta ∧ ∃ path, WrappedWalk piece span path := by
  rw [wrapped_intersectPiece piece flow, Graph.mem_filterWrapped,
    Graph.mem_wrappedSpans built loops]

end Piece

section Intersection

variable {settings : Settings} {graph : Graph} {span : Span}

private theorem mem_intersection :
    span ∈ intersection settings graph ↔ span.isReflexive = false ∧
      (∃ piece ∈ graph.activePieces, span ∈ (intersectPiece settings piece).alpha) ∧
      (∃ piece ∈ graph.activePieces, span ∈ (intersectPiece settings piece).beta) ∧
      (settings.family = .valueFlow →
        ∃ piece ∈ graph.activePieces, span ∈ (intersectPiece settings piece).wrapped) := by
  have among : ∀ {field : PieceAnswers → List Span},
      span ∈ (graph.activePieces.map (intersectPiece settings)).flatMap field ↔
        ∃ piece ∈ graph.activePieces, span ∈ field (intersectPiece settings piece) := by
    simp
  unfold intersection
  rw [Std.TreeSet.mem_ofList, List.contains_iff_mem, List.mem_filter, among]
  cases settings.family with
  | taint =>
      simp only [Bool.and_eq_true, Bool.not_eq_true', Std.TreeSet.contains_ofList,
        List.contains_iff_mem, among, and_true, reduceCtorEq, false_implies]
      exact and_left_comm
  | valueFlow =>
      simp only [Bool.and_eq_true, Bool.not_eq_true', Std.TreeSet.contains_ofList,
        List.contains_iff_mem, among, forall_const, and_assoc]
      exact and_left_comm

/-- The intersection answers confirmed spans only. -/
theorem confirmed_of_intersection (loops : settings.family = .valueFlow → graph.LoopsOnly)
    (member : span ∈ intersection settings graph) : Confirmed settings none graph span := by
  have sub : ∀ {piece}, piece ∈ graph.activePieces →
      ∀ edge ∈ piece.labelledEdges, edge ∈ graph.labelledEdges :=
    fun active edge => Graph.labelledEdges_of_mem_pieces (List.mem_filter.mp active).1
  obtain ⟨irreflexive, ⟨first, firstActive, alpha⟩, ⟨second, secondActive, beta⟩, wrapped⟩ :=
    mem_intersection.mp member
  refine ⟨irreflexive, (fun _ missing => nomatch missing), ?_, ?_, fun flow => ?_⟩
  · exact ((mem_alpha_intersectPiece irreflexive).mp alpha).imp fun path walk =>
      walk.mono (sub firstActive)
  · exact (exists_betaWalk irreflexive beta).imp fun path walk => walk.mono (sub secondActive)
  · obtain ⟨third, thirdActive, inThird⟩ := wrapped flow
    have isPiece := (List.mem_filter.mp thirdActive).1
    obtain ⟨path, walk⟩ := ((mem_wrapped_intersectPiece flow (Graph.built_of_mem_pieces isPiece)
      (Graph.loopsOnly_of_mem_pieces (loops flow) isPiece)).mp inThird).2
    exact ⟨path, walk.mono (sub thirdActive)⟩

/-- The intersection answers all confirmed spans. -/
theorem mem_intersection_iff (built : graph.Built)
    (loops : settings.family = .valueFlow → graph.LoopsOnly) :
    span ∈ intersection settings graph ↔ Confirmed settings none graph span := by
  refine ⟨confirmed_of_intersection loops, fun confirmed => ?_⟩
  have irreflexive := confirmed.irreflexive
  obtain ⟨alphaPath, alphaWalk⟩ := confirmed.alpha
  obtain ⟨betaPath, betaWalk⟩ := confirmed.beta
  obtain ⟨piece, active, inPiece⟩ :=
    Graph.exists_activePiece built alphaWalk.toCanonicalWalk irreflexive
  have isPiece := (List.mem_filter.mp active).1
  have alpha : span ∈ (intersectPiece settings piece).alpha :=
    (mem_alpha_intersectPiece irreflexive).mpr
      ⟨alphaPath, alphaWalk.within (inPiece alphaWalk.toCanonicalWalk), alphaWalk.nested⟩
  have beta : span ∈ (intersectPiece settings piece).beta :=
    (mem_beta_intersectPiece irreflexive alpha).mpr
      ⟨betaPath, betaWalk.within (inPiece betaWalk.toCanonicalWalk), betaWalk.nested⟩
  refine mem_intersection.mpr ⟨irreflexive, ⟨piece, active, alpha⟩, ⟨piece, active, beta⟩,
    fun flow => ⟨piece, active, ?_⟩⟩
  obtain ⟨path, walk⟩ := confirmed.wrapped flow
  exact (mem_wrapped_intersectPiece flow (Graph.built_of_mem_pieces isPiece)
    (Graph.loopsOnly_of_mem_pieces (loops flow) isPiece)).mpr
    ⟨beta, path, walk.within (inPiece walk.toCanonicalWalk), walk.wrapped⟩

theorem mem_intersection_of_walk (built : graph.Built)
    (loops : settings.family = .valueFlow → graph.LoopsOnly) {path : List Edge}
    (walk : BalancedWalk settings.family graph span path)
    (irreflexive : span.isReflexive = false) : span ∈ intersection settings graph := by
  refine (mem_intersection_iff built loops).mpr ⟨irreflexive, (fun _ missing => nomatch missing),
    ⟨path, walk.toCanonicalWalk, walk.nested _⟩, ⟨path, walk.toCanonicalWalk, walk.nested _⟩,
    fun flow => ?_⟩
  rw [flow] at walk
  exact ⟨path, walk.toCanonicalWalk, walk.wrapped⟩

end Intersection

/-! ## Interleaved spans -/

theorem exists_interleavedWalk_of_interleavedSpans {graph : Graph} {span : Span}
    (member : span ∈ interleavedSpans graph) :
    span.isReflexive = false ∧ ∃ path, InterleavedWalk graph span path := by
  unfold interleavedSpans at member
  obtain ⟨piece, active, answered⟩ := List.mem_flatMap.mp member
  obtain ⟨answer, different⟩ := List.mem_filter.mp answered
  have irreflexive : span.isReflexive = false := by simpa using different
  obtain ⟨path, walk⟩ := (BracketLanguage.mem_spans_solve_interleaved
    piece.proper_matchedBrackets irreflexive).mp answer
  refine ⟨irreflexive, path, walk.within fun edge onPath => ?_⟩
  have inPiece := (Graph.mem_labelledEdges_matchedBrackets.mp (walk.inside edge onPath)).1
  exact Graph.labelledEdges_of_mem_pieces (List.mem_filter.mp active).1 inPiece

theorem mem_interleavedSpans {graph : Graph} (built : graph.Built) {span : Span} :
    span ∈ interleavedSpans graph ↔
      span.isReflexive = false ∧ ∃ path, InterleavedWalk graph span path := by
  refine ⟨exists_interleavedWalk_of_interleavedSpans, ?_⟩
  rintro ⟨irreflexive, path, walk⟩
  obtain ⟨piece, active, inPiece⟩ :=
    Graph.exists_activePiece built walk.balanced.toCanonicalWalk irreflexive
  have within := walk.within (inPiece walk.balanced.toCanonicalWalk)
  have reduced := within.within within.balanced.matchedBrackets.inside
  exact List.mem_flatMap.mpr ⟨piece, active, List.mem_filter.mpr
    ⟨(BracketLanguage.mem_spans_solve_interleaved piece.proper_matchedBrackets irreflexive).mpr
      ⟨path, reduced⟩, by simp [irreflexive]⟩⟩

/-- The lower bound of a taint analysis answers the interleaved spans. -/
theorem mem_underApproximation_of_taint {settings : Settings} (taint : settings.family = .taint)
    {graph : Graph} {span : Span} : span ∈ underApproximation settings graph ↔
      span.isReflexive = false ∧ ∃ path, InterleavedWalk graph span path := by
  have sub : ∀ edge, edge ∈ graph.allBrackets.graph.labelledEdges ↔ edge ∈ graph.labelledEdges :=
    fun edge => Graph.mem_labelledEdges_allBrackets
  unfold underApproximation
  simp only [taint]
  rw [Std.TreeSet.mem_ofList, List.contains_iff_mem,
    mem_interleavedSpans graph.proper_allBrackets.built]
  constructor
  · rintro ⟨irreflexive, path, walk⟩
    exact ⟨irreflexive, path,
      walk.within fun edge onPath => (sub edge).mp (walk.inside edge onPath)⟩
  · rintro ⟨irreflexive, path, walk⟩
    exact ⟨irreflexive, path,
      walk.within fun edge onPath => (sub edge).mpr (walk.inside edge onPath)⟩

theorem exists_walk_of_underApproximation {settings : Settings} {graph : Graph} {span : Span}
    (taint : settings.family = .taint) (member : span ∈ underApproximation settings graph) :
    span.isReflexive = false ∧ ∃ path, BalancedWalk settings.family graph span path := by
  obtain ⟨irreflexive, path, walk⟩ := (mem_underApproximation_of_taint taint).mp member
  exact ⟨irreflexive, path, taint ▸ walk.balanced⟩

/-- The lower bound of a value flow analysis answers spans of flows only, but between any
brackets. -/
theorem exists_flowWalk_of_underApproximation {settings : Settings} {graph : Graph}
    {span : Span} (flow : settings.family = .valueFlow)
    (member : span ∈ underApproximation settings graph) :
    span.isReflexive = false ∧ ∃ path, FlowWalk graph span path := by
  unfold underApproximation at member
  simp only [flow] at member
  obtain ⟨different, above, answered, last, starts, stops, isLast⟩ :=
    LayeredGraph.mem_project.mp member
  rw [beq_iff_eq] at isLast
  subst isLast
  obtain ⟨_, path, walk⟩ := exists_interleavedWalk_of_interleavedSpans answered
  obtain ⟨below, flowWalk⟩ := Graph.exists_flowWalk walk.balanced starts stops
  refine ⟨Span.irreflexive_iff.mpr different, below, ?_⟩
  exact flowWalk.within fun edge onPath =>
    Graph.mem_labelledEdges_allBrackets.mp (flowWalk.inside edge onPath)

end Approximation

end GrammarReach
