import GrammarReach.Graph.EdgeList
import GrammarReach.Proofs.Graph.Condensation
import GrammarReach.Proofs.Graph.Partition
import GrammarReach.Proofs.Graph.Rearrangements
import Mathlib.Data.List.Nodup

/-!
# Repeated edges

When edges are left out that a graph has already, the graph lists every edge once, but for
one kind of edges.  An epsilon loop that comes before all other edges at its vertex is not
yet in the graph; it is added, and then the vertex receives its loop.  For the same reason a
piece that consists of epsilon loops lists one loop twice and does not count as trivial.
-/

namespace GrammarReach

namespace Graph

/-! ## The edges that are not left out -/

instance (edge other : Edge) : Decidable (Generates edge other) :=
  inferInstanceAs (Decidable (_ ∨ _ ∨ _))

/-- The edges that are not yet in the graph when their turn comes. -/
def newEdges (graph : Graph) : List Edge → List Edge
  | [] => []
  | edge :: edges =>
      if graph.containsEdge edge then graph.newEdges edges
      else edge :: (graph.add edge).newEdges edges

private theorem foldl_addNew_eq (graph : Graph) (edges : List Edge) :
    edges.foldl addNew graph = (graph.newEdges edges).foldl add graph := by
  induction edges generalizing graph with
  | nil => rfl
  | cons edge edges induction =>
      rw [List.foldl_cons, Graph.addNew, insertNew, newEdges]
      split
      · exact induction graph
      · exact induction (graph.add edge)

theorem ofDistinctEdges_eq_newEdges (edges : List Edge) :
    ofDistinctEdges edges = ofEdges (empty.newEdges edges) :=
  foldl_addNew_eq empty edges

private theorem Built.mem_newEdges {graph : Graph} (built : graph.Built) {edges : List Edge}
    {other : Edge} :
    other ∈ graph.newEdges edges ↔ other ∉ graph.edges ∧
      edges.find? (fun edge => Generates edge other) = some other := by
  induction edges generalizing graph with
  | nil => simp [newEdges]
  | cons edge edges induction =>
      rw [newEdges, List.find?_cons]
      by_cases known : graph.containsEdge edge = true
      · rw [if_pos known, induction built]
        refine and_congr_right fun missing => ?_
        have notGenerated : ¬ Generates edge other := by
          have member := built.indexed.containsEdge_iff.mp known
          rintro (rfl | rfl | rfl)
          · exact missing member
          · exact missing (built.closed.loop_mem _ (built.closed.source_mem _ member))
          · exact missing (built.closed.loop_mem _ (built.closed.target_mem _ member))
        simp [notGenerated]
      · have fresh : edge ∉ graph.edges := fun member =>
          known (built.indexed.containsEdge_iff.mpr member)
        rw [if_neg known, List.mem_cons, induction (.add edge built), built.closed.mem_add,
          not_or]
        change other = edge ∨ (_ ∧ ¬ Generates edge other) ∧ _ ↔ _
        by_cases generated : Generates edge other
        · simp only [generated, decide_true, Option.some.injEq]
          constructor
          · rintro (rfl | ⟨⟨_, absent⟩, _⟩)
            · exact ⟨fresh, rfl⟩
            · exact absurd trivial absent
          · rintro ⟨_, rfl⟩
            exact Or.inl rfl
        · have different : other ≠ edge := fun same => generated (Or.inl same)
          simp only [generated, decide_false, different, false_or, not_false_eq_true, and_true]

theorem Built.nodup_newEdges {graph : Graph} (built : graph.Built)
    (edges : List Edge) : (graph.newEdges edges).Nodup := by
  induction edges generalizing graph with
  | nil => exact List.nodup_nil
  | cons edge edges induction =>
      rw [newEdges]
      split
      · exact induction built
      · refine List.nodup_cons.mpr ⟨fun again => ?_, induction (.add edge built)⟩
        have missing := ((Built.add edge built).mem_newEdges.mp again).1
        exact missing (built.closed.mem_add.mpr (Or.inr (Or.inl rfl)))

/-! ## How often an edge is listed -/

/-- The first of the edges that touches the vertex is its epsilon loop. -/
def FirstSeenByLoop (edges : List Edge) (vertex : Vertex) : Prop :=
  edges.find? (fun edge => edge.source = vertex ∨ edge.target = vertex) = some (.loopAt vertex)

instance (edges : List Edge) (vertex : Vertex) : Decidable (FirstSeenByLoop edges vertex) :=
  inferInstanceAs (Decidable (_ = _))

private theorem eq_loopAt {edge : Edge} (loop : edge.isEpsilonLoop = true) :
    edge = .loopAt edge.source := by
  obtain ⟨source, target, label⟩ := edge
  obtain ⟨sameEnds, epsilon⟩ := Edge.isEpsilonLoop_iff.mp loop
  simp only at sameEnds epsilon
  rw [sameEnds, epsilon, Edge.loopAt]

private theorem generates_loopAt {edge : Edge} {vertex : Vertex} :
    Generates edge (.loopAt vertex) ↔ edge.source = vertex ∨ edge.target = vertex := by
  constructor
  · rintro (same | same | same)
    · exact Or.inl (congrArg Edge.source same).symm
    · exact Or.inl (congrArg Edge.source same).symm
    · exact Or.inr (congrArg Edge.source same).symm
  · rintro (rfl | rfl)
    · exact Or.inr (Or.inl rfl)
    · exact Or.inr (Or.inr rfl)

private theorem generates_proper {edge other : Edge} (proper : other.isEpsilonLoop = false) :
    Generates edge other ↔ edge = other := by
  constructor
  · rintro (rfl | rfl | rfl)
    · rfl
    · simp at proper
    · simp at proper
  · rintro rfl
    exact Or.inl rfl

private theorem loopAt_mem_newEdges {edges : List Edge} {vertex : Vertex} :
    .loopAt vertex ∈ empty.newEdges edges ↔ FirstSeenByLoop edges vertex := by
  rw [Built.empty.mem_newEdges, FirstSeenByLoop]
  simp only [generates_loopAt]
  simp [empty]

private theorem proper_mem_newEdges {edges : List Edge} {edge : Edge}
    (proper : edge.isEpsilonLoop = false) : edge ∈ empty.newEdges edges ↔ edge ∈ edges := by
  rw [Built.empty.mem_newEdges]
  simp only [generates_proper proper]
  constructor
  · exact fun new => List.mem_of_find?_eq_some new.2
  · intro member
    refine ⟨by simp [empty], ?_⟩
    cases found : edges.find? fun other => other = edge with
    | none => exact absurd (List.find?_eq_none.mp found edge member) (by simp)
    | some other =>
        have same : other = edge := by simpa using List.find?_some found
        rw [same]

private theorem loopAt_injective {first second : Vertex}
    (same : Edge.loopAt first = .loopAt second) : first = second :=
  congrArg Edge.source same

private theorem mem_map_loopAt {graph : Graph} {edge : Edge} :
    edge ∈ graph.vertexList.map Edge.loopAt ↔
      edge.isEpsilonLoop = true ∧ edge.source ∈ graph.vertices := by
  rw [List.mem_map]
  constructor
  · rintro ⟨vertex, member, rfl⟩
    exact ⟨isEpsilonLoop_loopAt vertex, mem_vertexList.mp member⟩
  · rintro ⟨loop, member⟩
    exact ⟨edge.source, mem_vertexList.mpr member, (eq_loopAt loop).symm⟩

theorem count_ofDistinctEdges (edges : List Edge) (edge : Edge) :
    (ofDistinctEdges edges).edges.toList.count edge =
      if edge ∈ (ofDistinctEdges edges).edges then
        if edge.isEpsilonLoop ∧ FirstSeenByLoop edges edge.source then 2 else 1
      else 0 := by
  by_cases member : edge ∈ (ofDistinctEdges edges).edges
  swap
  · rw [if_neg member]
    exact List.count_eq_zero.mpr (by simpa using member)
  have loopsOnce : ((ofDistinctEdges edges).vertexList.map Edge.loopAt).Nodup :=
    List.Nodup.map (fun _ _ => loopAt_injective) (nodup_vertexList _)
  have listed : (ofDistinctEdges edges).edges.toList.count edge =
      (empty.newEdges edges).count edge +
        ((ofDistinctEdges edges).vertexList.map Edge.loopAt).count edge := by
    rw [ofDistinctEdges_eq_newEdges, (perm_edges_ofEdges _).count_eq, List.count_append]
  rw [if_pos member, listed]
  cases loop : edge.isEpsilonLoop with
  | false =>
      obtain ⟨other, inEdges, generated⟩ := mem_ofDistinctEdges.mp member
      obtain rfl := (generates_proper loop).mp generated
      rw [List.count_eq_one_of_mem (Built.empty.nodup_newEdges edges)
          ((proper_mem_newEdges loop).mpr inEdges),
        List.count_eq_zero.mpr fun inLoops => by simp [mem_map_loopAt, loop] at inLoops]
      simp
  | true =>
      rw [List.count_eq_one_of_mem loopsOnce
        (mem_map_loopAt.mpr ⟨loop, (built_ofDistinctEdges edges).closed.source_mem _ member⟩)]
      have atVertex := eq_loopAt loop
      by_cases first : FirstSeenByLoop edges edge.source
      · have new := loopAt_mem_newEdges.mpr first
        rw [← atVertex] at new
        rw [List.count_eq_one_of_mem (Built.empty.nodup_newEdges edges) new]
        simp [first]
      · have old : edge ∉ empty.newEdges edges := fun new => by
          rw [atVertex] at new
          exact first (loopAt_mem_newEdges.mp new)
        rw [List.count_eq_zero.mpr old]
        simp [first]

/-! ## Trivial graphs -/

/-- A graph with a vertex is not trivial: the edge that brought its first vertex counts besides
the loop of the vertex. -/
theorem Built.isTrivial_eq_false {graph : Graph} (built : graph.Built) {vertex : Vertex}
    (member : vertex ∈ graph.vertices) : graph.isTrivial = false := by
  obtain ⟨edges, rfl⟩ := built.eq_ofEdges
  obtain ⟨edge, inEdges, _⟩ := mem_vertices_ofEdges.mp member
  have positive := List.length_pos_of_mem inEdges
  have count := edgeCount_ofEdges edges
  simp only [isTrivial, beq_eq_false_iff_ne]
  omega

section Pieces

variable {graph piece : Graph} {vertex : Vertex}

/-- No edge besides epsilon loops touches the vertex. -/
def Lonely (graph : Graph) (vertex : Vertex) : Prop :=
  ∀ edge ∈ graph.properEdges, edge.source ≠ vertex ∧ edge.target ≠ vertex

private theorem Lonely.eq_of_connected {other : Vertex} (lonely : graph.Lonely vertex)
    (connected : graph.Connected vertex other) : other = vertex := by
  induction connected with
  | refl => rfl
  | @tail middle next _ step induction =>
      subst induction
      obtain ⟨edge, inGraph, ends⟩ := step
      by_contra different
      have proper : edge.isEpsilonLoop = false := by
        rcases ends with ⟨source, target⟩ | ⟨source, target⟩
        · simpa [Edge.isEpsilonLoop, source, target] using fun same => absurd same.symm different
        · simpa [Edge.isEpsilonLoop, source, target] using fun same => absurd same different
      obtain ⟨notSource, notTarget⟩ := lonely edge (mem_properEdges.mpr ⟨inGraph, proper⟩)
      rcases ends with ⟨source, _⟩ | ⟨_, target⟩
      · exact notSource source
      · exact notTarget target

/-- A piece has no proper edge when one of its vertices is lonely, which is then its only
vertex. -/
theorem properEdges_eq_nil_iff (built : graph.Built) (member : piece ∈ graph.pieces)
    (inPiece : vertex ∈ piece.vertices) : piece.properEdges = [] ↔ graph.Lonely vertex := by
  have ends : ∀ edge ∈ graph.edges, edge.source ∈ piece.vertices ↔ edge.target ∈ piece.vertices :=
    fun _ inGraph => source_mem_piece_iff built member inGraph
  obtain ⟨number, _, rfl⟩ := exists_pieceAt member
  rw [mem_vertices_pieceAt built] at inPiece
  rw [properEdges_pieceAt, List.filter_eq_nil_iff]
  simp only [mem_vertices_pieceAt built] at ends
  constructor
  · intro bare edge proper
    have notSource : edge.source ≠ vertex := fun same =>
      bare edge proper (by simp [same, inPiece])
    refine ⟨notSource, fun same => bare edge proper ?_⟩
    rw [(ends edge (mem_properEdges.mp proper).1).mpr (same ▸ inPiece), beq_self_eq_true]
  · intro lonely edge proper sameNumber
    have connected := connected_of_pieceNumber? built inPiece (beq_iff_eq.mp sameNumber)
    exact (lonely edge proper).1 (lonely.eq_of_connected connected)

private theorem exists_vertex_pieceAt (built : graph.Built) {number : Nat}
    (inside : number < graph.pieceCount) : ∃ vertex, graph.pieceNumber? vertex = some number := by
  rw [pieceCount_eq built] at inside
  exact ⟨_, (pieceNumber?_eq_some_iff built).mpr
    ⟨_, List.getElem?_eq_getElem inside, .refl⟩⟩

theorem exists_mem_vertices_of_mem_pieces (built : graph.Built) (member : piece ∈ graph.pieces) :
    ∃ vertex, vertex ∈ piece.vertices := by
  obtain ⟨number, inside, rfl⟩ := exists_pieceAt member
  obtain ⟨vertex, numbered⟩ := exists_vertex_pieceAt built inside
  exact ⟨vertex, (mem_vertices_pieceAt built).mpr numbered⟩

theorem isTrivial_of_mem_pieces (built : graph.Built) (member : piece ∈ graph.pieces) :
    piece.isTrivial = false := by
  obtain ⟨vertex, inPiece⟩ := exists_mem_vertices_of_mem_pieces built member
  exact (built_of_mem_pieces member).isTrivial_eq_false inPiece

theorem edges_of_bare_piece (built : graph.Built) (member : piece ∈ graph.pieces)
    (bare : piece.properEdges = []) :
    ∃ vertex, piece.edges.toList = [.loopAt vertex, .loopAt vertex] := by
  obtain ⟨leader, inPiece⟩ := exists_mem_vertices_of_mem_pieces built member
  have lonely := (properEdges_eq_nil_iff built member inPiece).mp bare
  obtain ⟨number, _, rfl⟩ := exists_pieceAt member
  rw [mem_vertices_pieceAt built] at inPiece
  refine ⟨leader, ?_⟩
  have alone : graph.verticesAt number = [leader] := by
    refine List.perm_singleton.mp ((List.perm_ext_iff_of_nodup
      ((nodup_vertexList graph).filter _) (by simp)).mpr fun vertex => ?_)
    rw [List.mem_filter, mem_vertexList, beq_iff_eq, List.mem_singleton]
    constructor
    · rintro ⟨_, sameNumber⟩
      exact lonely.eq_of_connected (connected_of_pieceNumber? built inPiece sameNumber)
    · rintro rfl
      exact ⟨mem_vertices_of_pieceNumber? built inPiece, inPiece⟩
  have noEdges : graph.edgesAt number = [] := by
    rw [properEdges_pieceAt] at bare
    exact bare
  rw [pieceAt, alone, noEdges]
  have new : leader ∉ Graph.empty.vertices := Std.TreeSet.not_mem_emptyc
  rw [coverVertices, ofEdges, List.foldl_nil, List.foldl_cons, List.foldl_nil, coverVertex,
    if_neg (by simpa [containsVertex] using new), toList_edges_add]
  simp [empty, Edge.loopAt]

end Pieces

/-! ## Graphs without repeats -/

/-- The graph of some edges lists the loop of a vertex twice when the vertex is first seen by
its loop, and every other edge once.  No piece of it is trivial, and a piece of epsilon loops
is one vertex whose loop is listed twice. -/
structure RepeatsFirstLoops (edges : List Edge) (graph : Graph) : Prop where
  count : ∀ edge ∈ graph.edges, graph.edges.toList.count edge =
    if edge.isEpsilonLoop ∧ FirstSeenByLoop edges edge.source then 2 else 1
  loops : ∀ vertex ∈ graph.vertices, graph.edges.toList.count (.loopAt vertex) =
    if FirstSeenByLoop edges vertex then 2 else 1
  nodup_iff : graph.edges.toList.Nodup ↔ ∀ vertex, ¬ FirstSeenByLoop edges vertex
  nonTrivial : ∀ piece ∈ graph.pieces, piece.isTrivial = false
  bare : ∀ piece ∈ graph.pieces, piece.properEdges = [] ↔
    ∃ vertex, piece.edges.toList = [.loopAt vertex, .loopAt vertex]
  /-- Triviality says what it should as long as every vertex has an edge besides its loop. -/
  isTrivial_iff : (∀ piece ∈ graph.pieces, piece.isTrivial = true ↔ piece.properEdges = []) ↔
    ∀ vertex ∈ graph.vertices, ∃ edge ∈ edges,
      (edge.source = vertex ∨ edge.target = vertex) ∧ edge.isEpsilonLoop = false

private theorem mem_of_firstSeenByLoop {edges : List Edge} {vertex : Vertex}
    (first : FirstSeenByLoop edges vertex) :
    .loopAt vertex ∈ (ofDistinctEdges edges).edges :=
  mem_ofDistinctEdges.mpr ⟨_, List.mem_of_find?_eq_some first, Or.inl rfl⟩

private theorem nodup_ofDistinctEdges_iff {edges : List Edge} :
    (ofDistinctEdges edges).edges.toList.Nodup ↔ ∀ vertex, ¬ FirstSeenByLoop edges vertex := by
  rw [List.nodup_iff_count_le_one]
  constructor
  · intro atMostOnce vertex first
    have twice := count_ofDistinctEdges edges (.loopAt vertex)
    rw [if_pos (mem_of_firstSeenByLoop first), if_pos ⟨isEpsilonLoop_loopAt vertex, first⟩]
      at twice
    exact absurd (atMostOnce (.loopAt vertex)) (by omega)
  · intro never edge
    rw [count_ofDistinctEdges, if_neg fun both : edge.isEpsilonLoop ∧ _ => never edge.source both.2]
    split <;> simp

private theorem not_lonely_iff {edges : List Edge} {vertex : Vertex} :
    ¬ (ofDistinctEdges edges).Lonely vertex ↔ ∃ edge ∈ edges,
      (edge.source = vertex ∨ edge.target = vertex) ∧ edge.isEpsilonLoop = false := by
  simp only [Lonely, mem_properEdges, mem_ofDistinctEdges, ne_eq, not_forall, not_and_or,
    not_not, exists_prop]
  constructor
  · rintro ⟨edge, ⟨⟨other, inEdges, generated⟩, proper⟩, touches⟩
    obtain rfl := (generates_proper proper).mp generated
    exact ⟨other, inEdges, touches, proper⟩
  · rintro ⟨edge, inEdges, touches, proper⟩
    exact ⟨edge, ⟨⟨edge, inEdges, Or.inl rfl⟩, proper⟩, touches⟩

theorem repeatsFirstLoops_ofDistinctEdges (edges : List Edge) :
    RepeatsFirstLoops edges (ofDistinctEdges edges) where
  count edge member := by rw [count_ofDistinctEdges, if_pos member]
  loops vertex member := by
    rw [count_ofDistinctEdges, if_pos ((built_ofDistinctEdges edges).closed.loop_mem vertex member)]
    simp only [isEpsilonLoop_loopAt, true_and]
    rfl
  nodup_iff := nodup_ofDistinctEdges_iff
  nonTrivial piece member := isTrivial_of_mem_pieces (built_ofDistinctEdges edges) member
  bare piece member := by
    refine ⟨edges_of_bare_piece (built_ofDistinctEdges edges) member, ?_⟩
    rintro ⟨vertex, listed⟩
    simp [properEdges, listed]
  isTrivial_iff := by
    have built := built_ofDistinctEdges edges
    simp only [← not_lonely_iff]
    constructor
    · intro trivialIff vertex member lonely
      obtain ⟨piece, inPieces, inPiece⟩ := exists_piece built member
      have bare := (properEdges_eq_nil_iff built inPieces inPiece).mpr lonely
      exact absurd ((trivialIff piece inPieces).mpr bare)
        (by simp [isTrivial_of_mem_pieces built inPieces])
    · intro social piece inPieces
      obtain ⟨vertex, inPiece⟩ := exists_mem_vertices_of_mem_pieces built inPieces
      rw [isTrivial_of_mem_pieces built inPieces, properEdges_eq_nil_iff built inPieces inPiece]
      have inGraph : vertex ∈ (ofDistinctEdges edges).vertices := by
        obtain ⟨number, _, rfl⟩ := exists_pieceAt inPieces
        exact mem_vertices_of_pieceNumber? built ((mem_vertices_pieceAt built).mp inPiece)
      simp [social vertex inGraph]

theorem nodup_ofDistinctEdges_of_noLoops {edges : List Edge}
    (noLoops : ∀ edge ∈ edges, edge.isEpsilonLoop = false) :
    (ofDistinctEdges edges).edges.toList.Nodup := by
  refine nodup_ofDistinctEdges_iff.mpr fun vertex first => ?_
  have loop := noLoops _ (List.mem_of_find?_eq_some first)
  simp at loop

theorem nodup_edges_ofKnown (graph : Graph) (known : SpanSet) :
    (Condensation.ofKnown graph known).graph.edges.toList.Nodup := by
  rw [Condensation.graph_ofKnown]
  refine nodup_ofDistinctEdges_of_noLoops fun lifted member => ?_
  obtain ⟨edge, labelled, rfl⟩ := List.mem_map.mp member
  have notEpsilon : (Condensation.liftEdge (Condensation.ofKnown graph known) edge).isEpsilon =
      false := (mem_labelledEdges.mp labelled).2
  rw [Edge.isEpsilonLoop, notEpsilon, Bool.and_false]

end Graph

/-- The edges of a graph file, line by line. -/
def Edge.readAll (style : LabelStyle) (text : String) : List Edge :=
  (Text.lines text.toList).filterMap fun line =>
    (Edge.read line).map fun edge => { edge with label := style.apply edge.label }

namespace Graph

/-- A graph file is the graph of its edges, repeats left out. -/
theorem graph_read (style : LabelStyle) (text : String) :
    (Graph.read style text).graph = ofDistinctEdges (Edge.readAll style text) := by
  have general : ∀ (lines : List (List Char)) (reading : GraphReading),
      (lines.foldl (GraphReading.takeLine style) reading).graph =
        (lines.filterMap fun line =>
          (Edge.read line).map fun edge => { edge with label := style.apply edge.label }).foldl
            addNew reading.graph := by
    intro lines
    induction lines with
    | nil => exact fun _ => rfl
    | cons line lines induction =>
        intro reading
        rw [List.foldl_cons, induction, List.filterMap_cons, GraphReading.takeLine]
        cases Edge.read line with
        | none =>
            simp only [Option.map_none]
            split <;> rfl
        | some edge => rfl
  exact general _ {}

/-- Leaving out edges that are already there repeats exactly the epsilon loops that come first
at their vertex, whether the edges are given or read from a file.  A condensed graph lists
every edge once. -/
theorem repeatsFirstLoops (edges : List Edge) (style : LabelStyle) (text : String)
    (graph : Graph) (known : SpanSet) :
    RepeatsFirstLoops edges (ofDistinctEdges edges) ∧
      RepeatsFirstLoops (Edge.readAll style text) (Graph.read style text).graph ∧
      (Condensation.ofKnown graph known).graph.edges.toList.Nodup := by
  refine ⟨repeatsFirstLoops_ofDistinctEdges edges, ?_, nodup_edges_ofKnown graph known⟩
  rw [graph_read]
  exact repeatsFirstLoops_ofDistinctEdges _

/-- A loop that comes first is listed twice, and its vertex is a piece of epsilon loops that
is not trivial. -/
theorem repeated_firstLoop :
    ¬ (Graph.read .raw "0->0[label=\"\"]").graph.edges.toList.Nodup ∧
      ∃ piece ∈ (ofDistinctEdges [⟨0, 1, "a"⟩, ⟨2, 2, ""⟩]).pieces,
        piece.properEdges = [] ∧ piece.isTrivial = false := by
  decide +kernel

end Graph

end GrammarReach
