import GrammarReach.Proofs.Graph.Pieces

/-!
# Pieces as a partition

The pieces share out the vertices and the edges of a graph: each vertex lies in one piece,
each piece is what edges connect, and an edge that is no epsilon loop lies in the piece of
its ends.
-/

namespace GrammarReach

namespace Graph

/-- The parts are the weakly connected pieces of the graph, in the order of their smallest
vertices. -/
structure IsPartition (graph : Graph) (parts : List Graph) : Prop where
  /-- No vertex lies in two parts. -/
  disjoint : parts.Pairwise fun first second =>
    ∀ vertex ∈ first.vertices, vertex ∉ second.vertices
  covered : ∀ vertex, vertex ∈ graph.vertices ↔ ∃ part ∈ parts, vertex ∈ part.vertices
  /-- Edges of the graph lead, in any directions, from each vertex of a part to each other. -/
  connected : ∀ part ∈ parts, ∀ first ∈ part.vertices, ∀ second ∈ part.vertices,
    graph.Connected first second
  /-- No edge of the graph leaves or enters a part. -/
  closed : ∀ part ∈ parts, ∀ edge ∈ graph.edges,
    edge.source ∈ part.vertices ↔ edge.target ∈ part.vertices
  /-- Each part has a smallest vertex, and these ascend. -/
  ascending : ∃ smallest : List Vertex, smallest.Pairwise (· < ·) ∧
    List.Forall₂ (fun vertex part => vertex ∈ part.vertices ∧
      ∀ other ∈ part.vertices, vertex ≤ other) smallest parts
  /-- A part lists the edges of the graph that touch it, as often and in the order as the
  graph does. -/
  properEdges : ∀ part ∈ parts,
    part.properEdges = graph.properEdges.filter fun edge => part.containsVertex edge.source
  /-- The epsilon loops of a part are those of its vertices. -/
  loops : ∀ part ∈ parts, ∀ edge, edge.isEpsilonLoop →
    (edge ∈ part.edges ↔ edge.source ∈ part.vertices)

theorem Built.mem_epsilonLoop_iff {graph : Graph} (built : graph.Built) {edge : Edge}
    (loop : edge.isEpsilonLoop) : edge ∈ graph.edges ↔ edge.source ∈ graph.vertices := by
  obtain ⟨source, target, label⟩ := edge
  obtain ⟨sameEnds, epsilon⟩ := Edge.isEpsilonLoop_iff.mp loop
  simp only at sameEnds epsilon
  subst sameEnds epsilon
  exact ⟨built.closed.source_mem _, built.closed.loop_mem source⟩

section Partition

variable {graph : Graph}

theorem connected_of_pieceNumber? (built : graph.Built) {first second : Vertex}
    {number : Nat} (firstNumbered : graph.pieceNumber? first = some number)
    (secondNumbered : graph.pieceNumber? second = some number) :
    graph.Connected first second := by
  obtain ⟨leader, place, toFirst⟩ := (pieceNumber?_eq_some_iff built).mp firstNumbered
  obtain ⟨other, otherPlace, toSecond⟩ := (pieceNumber?_eq_some_iff built).mp secondNumbered
  obtain rfl : leader = other := Option.some.inj (place.symm.trans otherPlace)
  exact toFirst.symm.trans toSecond

private theorem forall₂_leaders (built : graph.Built) :
    List.Forall₂ (fun vertex piece => vertex ∈ piece.vertices ∧
      ∀ other ∈ piece.vertices, vertex ≤ other) graph.leaders graph.pieces := by
  rw [pieces_eq, pieceCount_eq built, List.forall₂_iff_get]
  refine ⟨by simp, fun number inside _ => ?_⟩
  simp only [List.get_eq_getElem, List.getElem_map, List.getElem_range]
  have place : graph.leaders[number]? = some graph.leaders[number] :=
    List.getElem?_eq_getElem inside
  have leads : graph.Leads graph.leaders[number] := by
    simpa using (List.mem_filter.mp (List.getElem_mem inside)).2
  refine ⟨(mem_vertices_pieceAt built).mpr
    ((pieceNumber?_eq_some_iff built).mpr ⟨_, place, .refl⟩), fun other member => ?_⟩
  have numbered := (mem_vertices_pieceAt built).mp member
  obtain ⟨leader, otherPlace, toOther⟩ := (pieceNumber?_eq_some_iff built).mp numbered
  obtain rfl : graph.leaders[number] = leader :=
    Option.some.inj (place.symm.trans otherPlace)
  exact leads other (mem_vertices_of_pieceNumber? built numbered) toOther.symm

/-- Splitting a graph into pieces is a partition of its vertices and edges. -/
theorem isPartition_pieces (built : graph.Built) : graph.IsPartition graph.pieces where
  disjoint := by
    rw [pieces_eq, List.pairwise_map]
    refine List.nodup_range.imp fun {first second} different vertex inFirst inSecond => ?_
    have firstNumbered := (mem_vertices_pieceAt built).mp inFirst
    have secondNumbered := (mem_vertices_pieceAt built).mp inSecond
    exact different (Option.some.inj (firstNumbered.symm.trans secondNumbered))
  covered vertex := by
    constructor
    · exact exists_piece built
    · rintro ⟨piece, member, inPiece⟩
      obtain ⟨number, _, rfl⟩ := exists_pieceAt member
      exact mem_vertices_of_pieceNumber? built ((mem_vertices_pieceAt built).mp inPiece)
  connected piece member first inPiece second alsoInPiece := by
    obtain ⟨number, _, rfl⟩ := exists_pieceAt member
    exact connected_of_pieceNumber? built ((mem_vertices_pieceAt built).mp inPiece)
      ((mem_vertices_pieceAt built).mp alsoInPiece)
  closed _ member _ inGraph := source_mem_piece_iff built member inGraph
  ascending := ⟨graph.leaders, graph.vertexList_ascending.filter _, forall₂_leaders built⟩
  properEdges piece member := by
    obtain ⟨number, _, rfl⟩ := exists_pieceAt member
    rw [properEdges_pieceAt]
    refine List.filter_congr fun edge _ => ?_
    rw [Bool.eq_iff_iff, beq_iff_eq, ← mem_vertices_pieceAt built]
    exact Std.TreeSet.contains_iff_mem.symm
  loops _ member _ loop := (built_of_mem_pieces member).mem_epsilonLoop_iff loop

end Partition

/-- Edges in both directions, a repeated edge, an epsilon edge between two vertices and a
vertex that only its loop touches. -/
def scatteredEdges : List Edge :=
  [⟨3, 4, "normal"⟩, ⟨1, 0, "op--0"⟩, ⟨9, 9, ""⟩, ⟨2, 0, "cp--0"⟩, ⟨3, 4, "normal"⟩,
    ⟨8, 5, ""⟩]

/-- The scattered edges make up four pieces. -/
theorem isPartition_pieces_scatteredEdges :
    (ofEdges scatteredEdges).pieces.map vertexList = [[0, 1, 2], [3, 4], [5, 8], [9]] ∧
      (ofEdges scatteredEdges).IsPartition (ofEdges scatteredEdges).pieces :=
  ⟨by decide +kernel, isPartition_pieces (built_ofEdges _)⟩

end Graph

end GrammarReach
