import GrammarReach.Proofs.Graph.PieceSearch
import Mathlib.Algebra.GroupWithZero.Nat
import Mathlib.Algebra.Order.BigOperators.Group.List
import Mathlib.Algebra.Order.Group.Nat

/-!
# Walks stay in their piece

A piece that holds the start of a walk holds all its labelled edges, and the pieces
together weigh no more than the graph.
-/

namespace GrammarReach

namespace Graph

/-! ## Numbers of pieces -/

/-- The number of the piece of a vertex. -/
def pieceNumber? (graph : Graph) (vertex : Vertex) : Option Nat :=
  (PieceSearch.ofGraph graph).pieceOf[vertex]?

def pieceCount (graph : Graph) : Nat :=
  (PieceSearch.ofGraph graph).found

section Numbers

variable {graph : Graph}

theorem pieceNumber?_eq_some_iff (built : graph.Built) {vertex : Vertex} {number : Nat} :
    graph.pieceNumber? vertex = some number ↔
      ∃ leader, graph.leaders[number]? = some leader ∧ graph.Connected leader vertex :=
  (numbers_ofGraph built).1.pieceOf vertex number

theorem pieceCount_eq (built : graph.Built) : graph.pieceCount = graph.leaders.length :=
  (numbers_ofGraph built).1.found

theorem pieceNumber?_eq_of_connected (built : graph.Built) {first second : Vertex}
    (connected : graph.Connected first second) :
    graph.pieceNumber? first = graph.pieceNumber? second := by
  ext number
  rw [pieceNumber?_eq_some_iff built, pieceNumber?_eq_some_iff built]
  constructor
  · rintro ⟨leader, place, leads⟩
    exact ⟨leader, place, leads.trans connected⟩
  · rintro ⟨leader, place, leads⟩
    exact ⟨leader, place, leads.trans connected.symm⟩

theorem pieceNumber?_eq_of_edge (built : graph.Built) {edge : Edge} (member : edge ∈ graph.edges) :
    graph.pieceNumber? edge.source = graph.pieceNumber? edge.target :=
  pieceNumber?_eq_of_connected built (.single (touches_of_edge member))

theorem mem_vertices_of_pieceNumber? (built : graph.Built) {vertex : Vertex} {number : Nat}
    (numbered : graph.pieceNumber? vertex = some number) : vertex ∈ graph.vertices := by
  obtain ⟨leader, place, connected⟩ := (pieceNumber?_eq_some_iff built).mp numbered
  have isLeader := (List.mem_filter.mp (List.mem_of_getElem? place)).1
  exact connected.mem_vertices built (mem_vertexList.mp isLeader)

theorem exists_pieceNumber (built : graph.Built) {vertex : Vertex}
    (member : vertex ∈ graph.vertices) :
    ∃ number < graph.pieceCount, graph.pieceNumber? vertex = some number := by
  obtain ⟨leader, isLeader, connected⟩ := (numbers_ofGraph built).2 vertex member
  obtain ⟨number, place⟩ := List.getElem?_of_mem isLeader
  rw [pieceCount_eq built]
  exact ⟨number, (List.getElem?_eq_some_iff.mp place).1,
    (pieceNumber?_eq_some_iff built).mpr ⟨leader, place, connected⟩⟩

end Numbers

/-! ## The piece of a number -/

/-- The graph in which every given vertex occurs; a vertex that no edge touches is added
through its loop. -/
def coverVertices (graph : Graph) (vertices : List Vertex) : Graph :=
  vertices.foldl coverVertex graph

/-- The edges of a piece besides the epsilon loops. -/
def edgesAt (graph : Graph) (number : Nat) : List Edge :=
  graph.properEdges.filter fun edge => graph.pieceNumber? edge.source == some number

/-- The vertices of a piece. -/
def verticesAt (graph : Graph) (number : Nat) : List Vertex :=
  graph.vertexList.filter fun vertex => graph.pieceNumber? vertex == some number

/-- The piece of a number. -/
def pieceAt (graph : Graph) (number : Nat) : Graph :=
  (ofEdges (graph.edgesAt number)).coverVertices (graph.verticesAt number)

private theorem getElem?_foldl_changePiece {α : Type} (search : PieceSearch) (key : α → Vertex)
    (change : α → Graph → Graph) (items : List α) (pieces : Array Graph) (number : Nat) :
    (items.foldl (fun pieces item => search.changePiece pieces (key item) (change item))
        pieces)[number]? =
      pieces[number]?.map fun piece =>
        (items.filter fun item => search.pieceOf[key item]? == some number).foldl
          (fun piece item => change item piece) piece := by
  induction items generalizing pieces with
  | nil => simp
  | cons item items induction =>
      rw [List.foldl_cons, induction, PieceSearch.changePiece]
      cases place : search.pieceOf[key item]? with
      | none => simp [place]
      | some other =>
          simp only [Array.getElem?_modify, List.filter_cons, place]
          by_cases same : other = number
          · subst same
            simp [Function.comp_def]
          · simp [same]

/-- There is one piece for each number. -/
theorem pieces_eq (graph : Graph) :
    graph.pieces = (List.range graph.pieceCount).map graph.pieceAt := by
  apply List.ext_getElem?
  intro number
  unfold pieces
  simp only
  rw [Array.getElem?_toList, getElem?_foldl_changePiece, getElem?_foldl_changePiece,
    Array.getElem?_replicate, List.getElem?_map]
  by_cases inside : number < graph.pieceCount
  · have found : number < (PieceSearch.ofGraph graph).found := inside
    rw [if_pos found, List.getElem?_range inside]
    rfl
  · have found : ¬ number < (PieceSearch.ofGraph graph).found := inside
    rw [if_neg found, List.getElem?_eq_none (by simpa using Nat.le_of_not_lt inside)]
    rfl

/-! ## Covering vertices -/

section Covering

variable {graph : Graph} {vertex : Vertex}

private theorem coverVertex_of_mem (member : vertex ∈ graph.vertices) :
    graph.coverVertex vertex = graph :=
  if_pos member

private theorem coverVertex_of_notMem (missing : vertex ∉ graph.vertices) :
    graph.coverVertex vertex = graph.add (.loopAt vertex) :=
  if_neg missing

theorem Built.coverVertex (built : graph.Built) (vertex : Vertex) :
    (graph.coverVertex vertex).Built := by
  by_cases member : vertex ∈ graph.vertices
  · rwa [coverVertex_of_mem member]
  · rw [coverVertex_of_notMem member]
    exact .add _ built

theorem labelledEdges_coverVertex (graph : Graph) (vertex : Vertex) :
    (graph.coverVertex vertex).labelledEdges = graph.labelledEdges := by
  by_cases member : vertex ∈ graph.vertices
  · rw [coverVertex_of_mem member]
  · simp [coverVertex_of_notMem member, labelledEdges_add]

theorem properEdges_coverVertex (graph : Graph) (vertex : Vertex) :
    (graph.coverVertex vertex).properEdges = graph.properEdges := by
  by_cases member : vertex ∈ graph.vertices
  · rw [coverVertex_of_mem member]
  · simp [coverVertex_of_notMem member, properEdges_add]

theorem mem_vertices_coverVertex {other : Vertex} :
    other ∈ (graph.coverVertex vertex).vertices ↔ other ∈ graph.vertices ∨ other = vertex := by
  by_cases member : vertex ∈ graph.vertices
  · rw [coverVertex_of_mem member]
    exact ⟨.inl, fun either => either.elim id fun same => same ▸ member⟩
  · rw [coverVertex_of_notMem member, mem_vertices_add]
    simp [Edge.loopAt]

theorem Built.coverVertices (built : graph.Built) (vertices : List Vertex) :
    (graph.coverVertices vertices).Built := by
  induction vertices generalizing graph with
  | nil => exact built
  | cons vertex vertices induction => exact induction (built.coverVertex vertex)

theorem labelledEdges_coverVertices (graph : Graph) (vertices : List Vertex) :
    (graph.coverVertices vertices).labelledEdges = graph.labelledEdges := by
  induction vertices generalizing graph with
  | nil => rfl
  | cons vertex vertices induction =>
      exact (induction _).trans (labelledEdges_coverVertex graph vertex)

theorem properEdges_coverVertices (graph : Graph) (vertices : List Vertex) :
    (graph.coverVertices vertices).properEdges = graph.properEdges := by
  induction vertices generalizing graph with
  | nil => rfl
  | cons vertex vertices induction =>
      exact (induction _).trans (properEdges_coverVertex graph vertex)

theorem mem_vertices_coverVertices {vertices : List Vertex} :
    vertex ∈ (graph.coverVertices vertices).vertices ↔
      vertex ∈ graph.vertices ∨ vertex ∈ vertices := by
  induction vertices generalizing graph with
  | nil => simp [coverVertices]
  | cons first vertices induction =>
      unfold coverVertices at induction ⊢
      rw [List.foldl_cons, induction, mem_vertices_coverVertex, List.mem_cons, or_assoc]

end Covering

/-! ## What a piece holds -/

section Pieces

variable {graph piece : Graph}

private theorem pieceNumber?_of_mem_edgesAt (built : graph.Built) {root : Nat} {edge : Edge}
    (member : edge ∈ graph.edgesAt root) :
    edge ∈ graph.edges ∧ graph.pieceNumber? edge.source = some root ∧
      graph.pieceNumber? edge.target = some root := by
  obtain ⟨kept, anchored⟩ := List.mem_filter.mp member
  have inGraph : edge ∈ graph.edges := by simpa using (List.mem_filter.mp kept).1
  have source : graph.pieceNumber? edge.source = some root := by simpa using anchored
  exact ⟨inGraph, source, pieceNumber?_eq_of_edge built inGraph ▸ source⟩

theorem mem_vertices_pieceAt (built : graph.Built) {root : Nat} {vertex : Vertex} :
    vertex ∈ (graph.pieceAt root).vertices ↔ graph.pieceNumber? vertex = some root := by
  unfold pieceAt
  rw [mem_vertices_coverVertices]
  constructor
  · rintro (touched | covered)
    · obtain ⟨edge, member, rfl | rfl⟩ := mem_vertices_ofEdges.mp touched
      · exact (pieceNumber?_of_mem_edgesAt built member).2.1
      · exact (pieceNumber?_of_mem_edgesAt built member).2.2
    · simpa using (List.mem_filter.mp covered).2
  · intro numbered
    have member := mem_vertices_of_pieceNumber? built numbered
    exact .inr (List.mem_filter.mpr ⟨mem_vertexList.mpr member, by simpa using numbered⟩)

private theorem labelledEdges_pieceAt (number : Nat) :
    (graph.pieceAt number).labelledEdges =
      graph.labelledEdges.filter fun edge => graph.pieceNumber? edge.source == some number := by
  unfold pieceAt edgesAt
  rw [labelledEdges_coverVertices, labelledEdges_ofEdges, List.filter_comm]
  congr 1
  rw [properEdges, List.filter_filter, labelledEdges]
  apply List.filter_congr
  intro edge _
  cases epsilon : edge.isEpsilon <;> simp [Edge.isEpsilonLoop, epsilon]

theorem properEdges_pieceAt (number : Nat) :
    (graph.pieceAt number).properEdges =
      graph.properEdges.filter fun edge => graph.pieceNumber? edge.source == some number := by
  unfold pieceAt
  rw [properEdges_coverVertices, properEdges_ofEdges, edgesAt, List.filter_comm, properEdges,
    List.filter_filter]
  simp

theorem exists_pieceAt (member : piece ∈ graph.pieces) :
    ∃ number < graph.pieceCount, piece = graph.pieceAt number := by
  rw [pieces_eq] at member
  obtain ⟨number, inside, rfl⟩ := List.mem_map.mp member
  exact ⟨number, List.mem_range.mp inside, rfl⟩

theorem built_of_mem_pieces (member : piece ∈ graph.pieces) : piece.Built := by
  obtain ⟨number, _, rfl⟩ := exists_pieceAt member
  exact (built_ofEdges _).coverVertices _

theorem labelledEdges_sublist_of_mem_pieces (member : piece ∈ graph.pieces) :
    piece.labelledEdges.Sublist graph.labelledEdges := by
  obtain ⟨number, _, rfl⟩ := exists_pieceAt member
  rw [labelledEdges_pieceAt]
  exact List.filter_sublist

theorem labelledEdges_of_mem_pieces (member : piece ∈ graph.pieces) {edge : Edge}
    (inPiece : edge ∈ piece.labelledEdges) : edge ∈ graph.labelledEdges :=
  (labelledEdges_sublist_of_mem_pieces member).subset inPiece

private theorem isEpsilon_of_mem_properEdges (loops : graph.LoopsOnly) {edge : Edge}
    (member : edge ∈ graph.properEdges) : edge.isEpsilon = false := by
  obtain ⟨inGraph, noLoop⟩ := mem_properEdges.mp member
  exact loops.isEpsilon_eq_false inGraph noLoop

theorem loopsOnly_of_mem_pieces (loops : graph.LoopsOnly) (member : piece ∈ graph.pieces) :
    piece.LoopsOnly := by
  obtain ⟨number, _, rfl⟩ := exists_pieceAt member
  intro edge inPiece epsilon
  by_contra different
  have proper : edge ∈ (graph.pieceAt number).properEdges :=
    mem_properEdges.mpr ⟨inPiece, by simpa [Edge.isEpsilonLoop] using fun same => absurd same different⟩
  rw [properEdges_pieceAt] at proper
  have labelled := isEpsilon_of_mem_properEdges loops (List.mem_filter.mp proper).1
  exact absurd epsilon (by simp [labelled])

theorem exists_piece (built : graph.Built) {vertex : Vertex} (member : vertex ∈ graph.vertices) :
    ∃ piece ∈ graph.pieces, vertex ∈ piece.vertices := by
  obtain ⟨number, inside, numbered⟩ := exists_pieceNumber built member
  refine ⟨graph.pieceAt number, ?_, (mem_vertices_pieceAt built).mpr numbered⟩
  rw [pieces_eq]
  exact List.mem_map.mpr ⟨number, List.mem_range.mpr inside, rfl⟩

theorem source_mem_piece_iff (built : graph.Built) (member : piece ∈ graph.pieces)
    {edge : Edge} (inGraph : edge ∈ graph.edges) :
    edge.source ∈ piece.vertices ↔ edge.target ∈ piece.vertices := by
  obtain ⟨number, _, rfl⟩ := exists_pieceAt member
  rw [mem_vertices_pieceAt built, mem_vertices_pieceAt built,
    pieceNumber?_eq_of_edge built inGraph]

/-- No vertex lies in two pieces. -/
theorem countP_containsVertex_pieces_le (built : graph.Built) (vertex : Vertex) :
    graph.pieces.countP (·.containsVertex vertex) ≤ 1 := by
  rw [pieces_eq, List.countP_map]
  calc
    (List.range graph.pieceCount).countP ((·.containsVertex vertex) ∘ graph.pieceAt)
        ≤ (List.range graph.pieceCount).countP
            fun number => some number == graph.pieceNumber? vertex := by
          refine List.countP_mono_left fun number _ contains => ?_
          have inside : vertex ∈ (graph.pieceAt number).vertices := by
            simpa [containsVertex] using contains
          exact beq_iff_eq.mpr ((mem_vertices_pieceAt built).mp inside).symm
    _ ≤ 1 := by
          cases graph.pieceNumber? vertex with
          | none => simp
          | some number =>
              have once := List.nodup_iff_count.mp (List.nodup_range (n := graph.pieceCount)) number
              simpa [List.count] using once

/-- A walk from a vertex of a piece stays in the piece. -/
theorem mem_piece_of_joins (built : graph.Built) (member : piece ∈ graph.pieces)
    {start stop : Vertex} {path : List Edge} (joins : Joins start path stop)
    (inside : ∀ edge ∈ path, edge ∈ graph.labelledEdges) (first : start ∈ piece.vertices) :
    (∀ edge ∈ path, edge ∈ piece.labelledEdges) ∧ stop ∈ piece.vertices := by
  obtain ⟨number, _, rfl⟩ := exists_pieceAt member
  induction path generalizing start with
  | nil => exact ⟨by simp, joins ▸ first⟩
  | cons edge path induction =>
      obtain ⟨rfl, restJoins⟩ := joins
      have numbered := (mem_vertices_pieceAt built).mp first
      have labelled := inside edge (by simp)
      have same := pieceNumber?_eq_of_edge built (mem_labelledEdges.mp labelled).1
      have next := (mem_vertices_pieceAt built).mpr (same ▸ numbered)
      obtain ⟨rest, last⟩ := induction restJoins
        (fun other later => inside other (by simp [later])) next
      refine ⟨List.forall_mem_cons.mpr ⟨?_, rest⟩, last⟩
      rw [labelledEdges_pieceAt]
      exact List.mem_filter.mpr ⟨labelled, by simpa using numbered⟩

/-- The pieces together weigh no more than the graph. -/
theorem sum_weight_pieces_le (built : graph.Built) :
    (graph.pieces.map weight).sum ≤ graph.weight := by
  have nodup : (List.range graph.pieceCount).Nodup := List.nodup_range
  let edgeCountAt := fun number =>
    (graph.labelledEdges.filter fun edge =>
      graph.pieceNumber? edge.source == some number).length
  let vertexCountAt := fun number => (graph.verticesAt number).length
  have weightAt : ∀ number, (graph.pieceAt number).weight ≤
      edgeCountAt number + vertexCountAt number := by
    intro number
    rw [weight, labelledEdges_pieceAt]
    refine Nat.add_le_add_left ?_ _
    rw [← length_vertexList]
    refine ((graph.pieceAt number).nodup_vertexList.subperm fun vertex member => ?_).length_le
    have numbered := (mem_vertices_pieceAt built).mp (mem_vertexList.mp member)
    exact List.mem_filter.mpr
      ⟨mem_vertexList.mpr (mem_vertices_of_pieceNumber? built numbered), by simpa using numbered⟩
  have edges := sum_length_filter_le nodup (fun edge : Edge => graph.pieceNumber? edge.source)
    graph.labelledEdges
  have vertices := sum_length_filter_le nodup graph.pieceNumber? graph.vertexList
  calc
    (graph.pieces.map weight).sum
        = ((List.range graph.pieceCount).map fun number => (graph.pieceAt number).weight).sum := by
          rw [pieces_eq, List.map_map]
          rfl
    _ ≤ ((List.range graph.pieceCount).map fun number =>
          edgeCountAt number + vertexCountAt number).sum :=
          List.sum_le_sum fun number _ => weightAt number
    _ = ((List.range graph.pieceCount).map edgeCountAt).sum +
          ((List.range graph.pieceCount).map vertexCountAt).sum :=
          List.sum_map_add
    _ ≤ graph.labelledEdges.length + graph.vertexList.length :=
          Nat.add_le_add edges vertices
    _ = graph.weight := by rw [weight, length_vertexList]

/-- Edges that hang together with a vertex of a piece lie in the piece. -/
theorem subset_piece (built : graph.Built) (member : piece ∈ graph.pieces) {kept : Set Edge}
    (inside : kept ⊆ graph.edgeSet) {vertex : Vertex} (connected : ConnectedAt kept vertex)
    (inPiece : vertex ∈ piece.vertices) : kept ⊆ piece.edgeSet := by
  have reached : ∀ {other : Vertex}, Linked kept vertex other → other ∈ piece.vertices := by
    intro other linked
    induction linked with
    | refl => exact inPiece
    | @tail middle next _ step induction =>
        obtain ⟨edge, inKept, ends⟩ := step
        have same := source_mem_piece_iff built member (mem_labelledEdges.mp (inside inKept)).1
        rcases ends with ⟨rfl, rfl⟩ | ⟨rfl, rfl⟩
        · exact same.mp induction
        · exact same.mpr induction
  intro edge inKept
  have labelled : ∀ other ∈ [edge], other ∈ graph.labelledEdges :=
    List.forall_mem_singleton.mpr (inside inKept)
  have source := reached (connected edge inKept)
  exact (mem_piece_of_joins built member (.single edge) labelled source).1 edge (.head _)

end Pieces

end Graph

end GrammarReach
