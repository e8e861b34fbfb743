import GrammarReach.Proofs.Analysis.Approximation
import GrammarReach.Proofs.Bracket.AutomatonStates
import GrammarReach.Proofs.Bracket.RearrangedBrackets

/-!
# Cheap bounds of rearranged graphs

The intersection and the lower bound answer the spans of certain walks, so they cannot tell
rearranged graphs apart.  The automaton of the regularization has its states in the order in
which ids were found; automata for rearranged pieces accept the same walks.
-/

namespace GrammarReach

namespace SpanSet

theorem toList_eq_iff {first second : SpanSet} :
    first.toList = second.toList ↔ ∀ span, span ∈ first ↔ span ∈ second := by
  constructor
  · intro same span
    rw [← Std.TreeSet.mem_toList, same, Std.TreeSet.mem_toList]
  · exact fun same => Std.TreeSet.Equiv.toList_eq (.of_forall_mem_iff same)

theorem contains_of_toList {first second : SpanSet} (same : first.toList = second.toList)
    (span : Span) : first.contains span = second.contains span :=
  Bool.eq_iff_iff.mpr (toList_eq_iff.mp same span)

end SpanSet

namespace Graph.Rearranges

variable {graph other : Graph} (rearranges : graph.Rearranges other)

include rearranges

/-! ## Value flows -/

private theorem mem_flowVertices {vertex : Vertex} :
    vertex ∈ graph.flowVertices ↔ vertex ∈ other.flowVertices := by
  rw [Graph.mem_flowVertices rearranges.built, Graph.mem_flowVertices rearranges.otherBuilt]
  simp only [rearranges.mem_edges, rearranges.reaches]

theorem keepFlows : graph.keepFlows.Rearranges other.keepFlows := by
  have kept : ∀ vertex, graph.flowVertices.contains vertex = other.flowVertices.contains vertex := by
    intro vertex
    rw [Bool.eq_iff_iff, Std.TreeSet.contains_iff_mem, Std.TreeSet.contains_iff_mem]
    exact rearranges.mem_flowVertices
  unfold Graph.keepFlows
  simp only [kept]
  exact rearranges.filter _

/-! ## The bounds -/

private theorem confirmed {settings : Settings} {span : Span} :
    Confirmed settings none graph span ↔ Confirmed settings none other span :=
  ⟨fun confirmed => confirmed.mono fun _ => rearranges.mem_labelledEdges.mp,
    fun confirmed => confirmed.mono fun _ => rearranges.mem_labelledEdges.mpr⟩

theorem toList_intersection {settings : Settings}
    (loops : settings.family = .valueFlow → graph.LoopsOnly) :
    (Approximation.intersection settings graph).toList =
      (Approximation.intersection settings other).toList := by
  refine SpanSet.toList_eq_iff.mpr fun span => ?_
  rw [Approximation.mem_intersection_iff rearranges.built loops,
    Approximation.mem_intersection_iff rearranges.otherBuilt
      fun flow => rearranges.loopsOnly (loops flow), rearranges.confirmed]

private theorem mem_interleavedSpans {span : Span} :
    span ∈ Approximation.interleavedSpans graph ↔
      span ∈ Approximation.interleavedSpans other := by
  rw [Approximation.mem_interleavedSpans rearranges.built,
    Approximation.mem_interleavedSpans rearranges.otherBuilt]
  refine and_congr_right fun _ => exists_congr fun path => ⟨fun walk => ?_, fun walk => ?_⟩
  · exact walk.within fun edge member => rearranges.mem_labelledEdges.mp (walk.inside edge member)
  · exact walk.within fun edge member => rearranges.mem_labelledEdges.mpr (walk.inside edge member)

theorem toList_underApproximation (settings : Settings) :
    (Approximation.underApproximation settings graph).toList =
      (Approximation.underApproximation settings other).toList := by
  have working := rearranges.allBrackets
  refine SpanSet.toList_eq_iff.mpr fun span => ?_
  unfold Approximation.underApproximation
  cases settings.family with
  | taint =>
      simp only [Std.TreeSet.mem_ofList, List.contains_iff_mem, working.mem_interleavedSpans]
  | valueFlow =>
      have tripled := working.ofCopies 3 flowCopies
      have split := working.split_ofCopies 3 flowCopies
      simp only [LayeredGraph.projectFlows, LayeredGraph.mem_project, Graph.tripled, split,
        tripled.mem_interleavedSpans]

private theorem regularWalk {settings : Settings} {span : Span} {path : List Edge}
    (walk : Approximation.RegularWalk settings graph.allBrackets.ids graph span path) :
    Approximation.RegularWalk settings other.allBrackets.ids other span path where
  joins := walk.joins
  inside edge member := rearranges.mem_labelledEdges.mp (walk.inside edge member)
  accepted := by
    have reordered : (Approximation.automaton settings graph.allBrackets.ids).Reordered
        (Approximation.automaton settings other.allBrackets.ids) :=
      ⟨rfl, rfl, fun _ => rearranges.mem_ids_allBrackets⟩
    obtain ⟨last, run, accepted⟩ := walk.accepted
    exact reordered.exists_run run accepted
  canonical := walk.canonical
  matched := walk.matched

private theorem mem_regularization_of_mem {settings : Settings} {span : Span}
    (member : span ∈ Approximation.regularization settings graph) :
    span ∈ Approximation.regularization settings other := by
  obtain ⟨answers, isAnswer, inAnswers⟩ := Approximation.mem_unite.mp member
  obtain ⟨piece, active, rfl⟩ := List.mem_map.mp isAnswer
  obtain ⟨isPiece, nontrivial⟩ := List.mem_filter.mp active
  obtain ⟨otherPiece, otherMember, pieces⟩ := exists_related rearranges.symm.pieces isPiece
  have otherActive : otherPiece ∈ other.activePieces :=
    List.mem_filter.mpr ⟨otherMember, by rwa [pieces.isTrivial]⟩
  refine Approximation.mem_unite.mpr ⟨_, List.mem_map.mpr ⟨otherPiece, otherActive, rfl⟩, ?_⟩
  obtain ⟨irreflexive, path, walk⟩ := Approximation.mem_regularizePiece.mp inAnswers
  exact Approximation.mem_regularizePiece.mpr ⟨irreflexive, path, pieces.symm.regularWalk walk⟩

theorem toList_regularization (settings : Settings) :
    (Approximation.regularization settings graph).toList =
      (Approximation.regularization settings other).toList :=
  SpanSet.toList_eq_iff.mpr fun _ =>
    ⟨rearranges.mem_regularization_of_mem, rearranges.symm.mem_regularization_of_mem⟩

end Graph.Rearranges

end GrammarReach
