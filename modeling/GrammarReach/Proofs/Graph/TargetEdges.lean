import GrammarReach.Proofs.Graph.Restriction
import Mathlib.Data.List.Dedup
import Mathlib.Data.List.ProdSigma

/-!
# Edges between targets

A restricted graph holds the edges that lie between the ends of a target, in their order
and as often as before.  The exception are targets that are as many as there are pairs of
vertices: then the graph stays as it is, also when some targets lie outside of it.
-/

namespace GrammarReach

namespace Graph

variable {graph : Graph} {targets : List Span}

/-- For some target with both ends in the graph, the start reaches the source of the edge
and the target of the edge reaches the stop. -/
def LiesBetween (graph : Graph) (targets : List Span) (edge : Edge) : Prop :=
  ∃ span ∈ targets, span.start ∈ graph.vertices ∧ span.stop ∈ graph.vertices ∧
    graph.Reaches span.start edge.source ∧ graph.Reaches edge.target span.stop

/-! ## Targets for all pairs -/

/-- The graph counts as covered when it has no more pairs of vertices than there are
different targets. -/
theorem coversAllPairs_iff :
    graph.coversAllPairs targets = true ↔
      graph.vertexCount * graph.vertexCount ≤ targets.dedup.length := by
  have members : ∀ span, span ∈ (Std.TreeSet.ofList targets).toList ↔ span ∈ targets.dedup := by
    simp
  have distinct : (Std.TreeSet.ofList targets).toList.Nodup :=
    Std.TreeSet.distinct_toList.imp fun different same =>
      different (Std.LawfulEqOrd.compare_eq_iff_eq.mpr same)
  have counted : (Std.TreeSet.ofList targets).size = targets.dedup.length := by
    rw [← Std.TreeSet.length_toList]
    exact ((List.perm_ext_iff_of_nodup distinct targets.nodup_dedup).mpr members).length_eq
  have fewer := targets.dedup_sublist.length_le
  simp only [coversAllPairs, Bool.and_eq_true, decide_eq_true_eq, counted]
  omega

private theorem mem_targets_of_covers
    (inside : ∀ span ∈ targets, span.start ∈ graph.vertices ∧ span.stop ∈ graph.vertices)
    (covers : graph.coversAllPairs targets = true) {span : Span}
    (start : span.start ∈ graph.vertices) (stop : span.stop ∈ graph.vertices) :
    span ∈ targets := by
  have enough := coversAllPairs_iff.mp covers
  let pairs := targets.dedup.map fun span => (span.start, span.stop)
  have distinct : pairs.Nodup := by
    refine targets.nodup_dedup.map fun first second same => ?_
    cases first
    cases second
    simpa using same
  have sub : pairs ⊆ graph.vertexList ×ˢ graph.vertexList := by
    rintro ⟨first, second⟩ member
    obtain ⟨target, listed, same⟩ := List.mem_map.mp member
    cases same
    obtain ⟨startInside, stopInside⟩ := inside target (List.mem_dedup.mp listed)
    exact List.mem_product.mpr ⟨mem_vertexList.mpr startInside, mem_vertexList.mpr stopInside⟩
  have all : pairs.Perm (graph.vertexList ×ˢ graph.vertexList) := by
    refine (distinct.subperm sub).perm_of_length_le ?_
    rw [List.length_product, length_vertexList, List.length_map]
    exact enough
  have listed : (span.start, span.stop) ∈ pairs := all.mem_iff.mpr
    (List.mem_product.mpr ⟨mem_vertexList.mpr start, mem_vertexList.mpr stop⟩)
  obtain ⟨target, member, same⟩ := List.mem_map.mp listed
  obtain rfl : target = span := by
    cases target
    cases span
    simpa using same
  exact List.mem_dedup.mp member

/-! ## What a restriction keeps -/

private theorem isBetween_iff_liesBetween (built : graph.Built) {edge : Edge}
    (inside : edge ∈ graph.edges) :
    isBetween (.ofGraph graph)
        (Std.TreeSet.ofList (targets.filterMap (componentSpan? (.ofGraph graph)))).toList
        edge = true ↔ graph.LiesBetween targets edge := by
  rw [isBetween_iff built inside]
  simp only [Components.reaches_eq_true_iff built, LiesBetween]
  constructor
  · rintro ⟨span, target, ⟨start, _, before⟩, _, stop, behind⟩
    exact ⟨span, target, start, stop, before, behind⟩
  · rintro ⟨span, target, start, stop, before, behind⟩
    exact ⟨span, target, ⟨start, built.closed.source_mem edge inside, before⟩,
      built.closed.target_mem edge inside, stop, behind⟩

open Classical in
theorem properEdges_restrictTo (built : graph.Built)
    (uncovered : graph.coversAllPairs targets = false) :
    (graph.restrictTo targets).properEdges =
      graph.properEdges.filter fun edge => graph.LiesBetween targets edge := by
  rw [restrictTo, if_neg (by simp [uncovered]), properEdges_ofEdges, properEdges,
    List.filter_filter, List.filter_filter]
  refine List.filter_congr fun edge member => ?_
  have inside : edge ∈ graph.edges := Array.mem_toList_iff.mp member
  rw [Bool.eq_iff_iff]
  simp only [Bool.and_eq_true, decide_eq_true_eq, isBetween_iff_liesBetween built inside]
  exact ⟨fun kept => ⟨kept.2.2, kept.1⟩, fun kept => ⟨kept.2, kept.2, kept.1⟩⟩

theorem restrictTo_of_covers (covers : graph.coversAllPairs targets = true) :
    graph.restrictTo targets = graph :=
  if_pos covers

open Classical in
/-- A restriction keeps just the edges between targets, as often as they occur and in their
order, unless the different targets are as many as the pairs of vertices: then it keeps all
edges, and these are the right ones if each lies between targets.  That is so when no target
lies outside the graph. -/
theorem restrictTo_exact (built : graph.Built) (targets : List Span) :
    ((graph.restrictTo targets).properEdges =
        graph.properEdges.filter (fun edge => graph.LiesBetween targets edge) ↔
      (graph.vertexCount * graph.vertexCount ≤ targets.dedup.length →
        ∀ edge ∈ graph.properEdges, graph.LiesBetween targets edge)) ∧
    (graph.vertexCount * graph.vertexCount ≤ targets.dedup.length →
      graph.restrictTo targets = graph) ∧
    ((∀ span ∈ targets, span.start ∈ graph.vertices ∧ span.stop ∈ graph.vertices) →
      (graph.restrictTo targets).properEdges =
        graph.properEdges.filter fun edge => graph.LiesBetween targets edge) := by
  have whole : (graph.restrictTo targets).properEdges =
        graph.properEdges.filter (fun edge => graph.LiesBetween targets edge) ↔
      (graph.coversAllPairs targets = true →
        ∀ edge ∈ graph.properEdges, graph.LiesBetween targets edge) := by
    cases covers : graph.coversAllPairs targets with
    | false => simp [properEdges_restrictTo built covers]
    | true => simp [restrictTo_of_covers covers, eq_comm (a := graph.properEdges)]
  rw [← coversAllPairs_iff]
  refine ⟨whole, restrictTo_of_covers, fun inside => whole.mpr fun covers edge member => ?_⟩
  have inGraph := (mem_properEdges.mp member).1
  have start := built.closed.source_mem edge inGraph
  have stop := built.closed.target_mem edge inGraph
  exact ⟨⟨edge.source, edge.target⟩, mem_targets_of_covers inside covers start stop, start, stop,
    .refl graph _, .refl graph _⟩

/-- A cycle on the way from `0` to `3`, with an edge before and an edge behind the way. -/
def cycleOnTheWay : Graph :=
  .ofEdges [⟨0, 1, "a"⟩, ⟨1, 2, "b"⟩, ⟨2, 1, "c"⟩, ⟨2, 3, "d"⟩, ⟨3, 4, "e"⟩, ⟨9, 0, "f"⟩]

open Classical in
theorem restrictTo_exact_cycleOnTheWay :
    cycleOnTheWay.Built ∧
      (∀ span ∈ [(⟨0, 3⟩ : Span)],
        span.start ∈ cycleOnTheWay.vertices ∧ span.stop ∈ cycleOnTheWay.vertices) ∧
      [⟨0, 1, "a"⟩, ⟨1, 2, "b"⟩, ⟨2, 1, "c"⟩, ⟨2, 3, "d"⟩] =
        cycleOnTheWay.properEdges.filter fun edge => cycleOnTheWay.LiesBetween [⟨0, 3⟩] edge := by
  have built : cycleOnTheWay.Built := built_ofEdges _
  have inside : ∀ span ∈ [(⟨0, 3⟩ : Span)],
      span.start ∈ cycleOnTheWay.vertices ∧ span.stop ∈ cycleOnTheWay.vertices := by
    decide +kernel
  have kept : (cycleOnTheWay.restrictTo [⟨0, 3⟩]).properEdges =
      [⟨0, 1, "a"⟩, ⟨1, 2, "b"⟩, ⟨2, 1, "c"⟩, ⟨2, 3, "d"⟩] := by
    decide +kernel
  exact ⟨built, inside, kept.symm.trans ((restrictTo_exact built [⟨0, 3⟩]).2.2 inside)⟩

/-- Four targets outside of a graph with two vertices count as all its pairs, so that an edge
stays which no target asks for. -/
theorem kept_beside_strangeTargets :
    ⟨0, 1, "a"⟩ ∈ ((ofEdges [⟨0, 1, "a"⟩]).restrictTo
        [⟨5, 6⟩, ⟨5, 7⟩, ⟨5, 8⟩, ⟨5, 9⟩]).properEdges ∧
      ¬ (ofEdges [⟨0, 1, "a"⟩]).LiesBetween [⟨5, 6⟩, ⟨5, 7⟩, ⟨5, 8⟩, ⟨5, 9⟩] ⟨0, 1, "a"⟩ := by
  refine ⟨by decide +kernel, ?_⟩
  rintro ⟨span, target, start, _⟩
  have outside : ∀ span ∈ [(⟨5, 6⟩ : Span), ⟨5, 7⟩, ⟨5, 8⟩, ⟨5, 9⟩],
      span.start ∉ (ofEdges [⟨0, 1, "a"⟩]).vertices := by
    decide +kernel
  exact outside span target start

end Graph

end GrammarReach
