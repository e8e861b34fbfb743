import GrammarReach.Proofs.Graph.Layered
import GrammarReach.Proofs.Graph.Pieces
import GrammarReach.Proofs.Graph.Restriction

/-!
# Rearranged graphs

When the same edges are added in another order, the graph lists its edges in another order
and nothing else changes: vertices get the same numbers and reach the same vertices, and every
part that is cut out of one graph is a rearrangement of the same part of the other one.
-/

namespace GrammarReach

namespace Graph

/-! ## Adding edges in another order -/

/-- The graphs have the same edges, in any order. -/
structure Rearranges (graph other : Graph) : Prop where
  built : graph.Built
  otherBuilt : other.Built
  edges : graph.edges.toList.Perm other.edges.toList

private theorem vertexList_eq {graph other : Graph}
    (same : ∀ vertex, vertex ∈ graph.vertices ↔ vertex ∈ other.vertices) :
    graph.vertexList = other.vertexList :=
  Std.TreeSet.Equiv.toList_eq (.of_forall_mem_iff same)

private theorem perm_edges_register (graph : Graph) (vertex : Vertex) :
    ((graph.register vertex).edges.toList ++ graph.vertexList.map Edge.loopAt).Perm
      (graph.edges.toList ++ (graph.register vertex).vertexList.map Edge.loopAt) := by
  by_cases known : vertex ∈ graph.vertices
  · have same : graph.register vertex = graph := if_pos known
    rw [same]
  · have longer : (graph.register vertex).vertexList.Perm (vertex :: graph.vertexList) := by
      refine (List.perm_ext_iff_of_nodup (nodup_vertexList _) ?_).mpr fun other => ?_
      · exact List.nodup_cons.mpr ⟨fun member => known (mem_vertexList.mp member),
          nodup_vertexList graph⟩
      · rw [mem_vertexList, mem_vertices_register, List.mem_cons, mem_vertexList, or_comm]
    rw [toList_edges_register, if_neg known, List.append_assoc]
    exact (longer.map Edge.loopAt).symm.append_left _

private theorem perm_edges_add (graph : Graph) (edge : Edge) :
    ((graph.add edge).edges.toList ++ graph.vertexList.map Edge.loopAt).Perm
      (edge :: (graph.edges.toList ++ (graph.add edge).vertexList.map Edge.loopAt)) := by
  have first := perm_edges_register (graph.append edge) edge.source
  have second := perm_edges_register ((graph.append edge).register edge.source) edge.target
  have appended : (graph.append edge).edges.toList = graph.edges.toList ++ [edge] := by
    simp [append]
  have kept : (graph.append edge).vertexList = graph.vertexList := rfl
  rw [appended, kept] at first
  rw [List.perm_iff_count] at first second ⊢
  intro other
  have counted := first other
  have countedNext := second other
  simp only [List.count_append, List.count_cons, List.count_nil, add] at counted countedNext ⊢
  omega

/-- The graph of some edges has these and a loop for every vertex. -/
theorem perm_edges_ofEdges (edges : List Edge) :
    (ofEdges edges).edges.toList.Perm
      (edges ++ (ofEdges edges).vertexList.map Edge.loopAt) := by
  have general : ∀ graph : Graph,
      ((edges.foldl add graph).edges.toList ++ graph.vertexList.map Edge.loopAt).Perm
        (edges ++ (graph.edges.toList ++ (edges.foldl add graph).vertexList.map Edge.loopAt)) := by
    induction edges with
    | nil => exact fun _ => .refl _
    | cons edge edges induction =>
        intro graph
        have rest := induction (graph.add edge)
        have added := perm_edges_add graph edge
        rw [List.perm_iff_count] at rest added ⊢
        intro other
        have counted := rest other
        have countedFirst := added other
        simp only [List.count_append, List.count_cons, List.foldl_cons] at counted countedFirst ⊢
        omega
  have fromEmpty := general .empty
  have noVertices : Graph.empty.vertexList = [] := by decide
  have noEdges : Graph.empty.edges.toList = [] := rfl
  rwa [noVertices, noEdges, List.map_nil, List.append_nil, List.nil_append] at fromEmpty

theorem rearranges_ofEdges {edges others : List Edge} (perm : edges.Perm others) :
    (ofEdges edges).Rearranges (ofEdges others) where
  built := built_ofEdges edges
  otherBuilt := built_ofEdges others
  edges := by
    have vertices : (ofEdges edges).vertexList = (ofEdges others).vertexList := by
      refine vertexList_eq fun vertex => ?_
      simp only [mem_vertices_ofEdges, perm.mem_iff]
    refine (perm_edges_ofEdges edges).trans (.trans ?_ (perm_edges_ofEdges others).symm)
    rw [vertices]
    exact perm.append_right _

private theorem ofDistinctEdges_eq {edges : List Edge}
    (labelled : ∀ edge ∈ edges, edge.isEpsilon = false) :
    ofDistinctEdges edges = ofEdges (ofDistinctEdges edges).labelledEdges := by
  have general : ∀ kept : List Edge, (∀ edge ∈ kept, edge.isEpsilon = false) →
      ∃ all, edges.foldl addNew (ofEdges kept) = ofEdges all ∧
        ∀ edge ∈ all, edge.isEpsilon = false := by
    induction edges with
    | nil => exact fun kept known => ⟨kept, rfl, known⟩
    | cons edge edges induction =>
        intro kept known
        obtain ⟨first, rest⟩ := List.forall_mem_cons.mp labelled
        rw [List.foldl_cons, addNew, insertNew]
        split
        · exact induction rest kept known
        · have added : (ofEdges kept).add edge = ofEdges (kept ++ [edge]) := by
            simp [ofEdges, List.foldl_append]
          rw [added]
          refine induction rest _ fun other member => ?_
          rcases List.mem_append.mp member with old | new
          · exact known other old
          · rw [List.mem_singleton.mp new]
            exact first
  obtain ⟨all, same, allLabelled⟩ := general [] (by simp)
  have whole : ofDistinctEdges edges = ofEdges all := same
  rw [whole, labelledEdges_ofEdges, List.filter_eq_self.mpr]
  exact fun edge member => by simp [allLabelled edge member]

theorem rearranges_ofDistinctEdges {edges others : List Edge}
    (labelled : ∀ edge ∈ edges, edge.isEpsilon = false) (perm : edges.Perm others) :
    (ofDistinctEdges edges).Rearranges (ofDistinctEdges others) := by
  have otherLabelled : ∀ edge ∈ others, edge.isEpsilon = false :=
    fun edge member => labelled edge (perm.mem_iff.mpr member)
  rw [ofDistinctEdges_eq labelled, ofDistinctEdges_eq otherLabelled]
  refine rearranges_ofEdges ((List.perm_ext_iff_of_nodup
    (nodup_labelledEdges_ofDistinctEdges edges)
    (nodup_labelledEdges_ofDistinctEdges others)).mpr fun edge => ?_)
  rw [mem_labelledEdges_ofDistinctEdges, mem_labelledEdges_ofDistinctEdges, perm.mem_iff]

/-! ## What does not depend on the order -/

namespace Rearranges

variable {graph other : Graph} (rearranges : graph.Rearranges other)

include rearranges

theorem symm : other.Rearranges graph :=
  ⟨rearranges.otherBuilt, rearranges.built, rearranges.edges.symm⟩

theorem mem_edges {edge : Edge} : edge ∈ graph.edges ↔ edge ∈ other.edges := by
  rw [← Array.mem_toList_iff, rearranges.edges.mem_iff, Array.mem_toList_iff]

theorem mem_vertices {vertex : Vertex} : vertex ∈ graph.vertices ↔ vertex ∈ other.vertices :=
  ⟨fun member => rearranges.otherBuilt.closed.source_mem _
      (rearranges.mem_edges.mp (rearranges.built.closed.loop_mem vertex member)),
    fun member => rearranges.built.closed.source_mem _
      (rearranges.mem_edges.mpr (rearranges.otherBuilt.closed.loop_mem vertex member))⟩

theorem labelledEdges : graph.labelledEdges.Perm other.labelledEdges :=
  rearranges.edges.filter _

theorem mem_labelledEdges {edge : Edge} :
    edge ∈ graph.labelledEdges ↔ edge ∈ other.labelledEdges :=
  rearranges.labelledEdges.mem_iff

theorem loopsOnly (loops : graph.LoopsOnly) : other.LoopsOnly :=
  fun edge member => loops edge (rearranges.mem_edges.mpr member)

theorem vertexList : graph.vertexList = other.vertexList :=
  vertexList_eq fun _ => rearranges.mem_vertices

theorem containsVertex (vertex : Vertex) :
    graph.containsVertex vertex = other.containsVertex vertex :=
  Bool.eq_iff_iff.mpr rearranges.mem_vertices

theorem edgeCount : graph.edgeCount = other.edgeCount :=
  rearranges.edges.length_eq

theorem vertexCount : graph.vertexCount = other.vertexCount := by
  rw [← length_vertexList, rearranges.vertexList, length_vertexList]

theorem isTrivial : graph.isTrivial = other.isTrivial := by
  unfold Graph.isTrivial
  rw [rearranges.edgeCount, rearranges.vertexCount]

theorem numbering : Numbering.ofGraph graph = Numbering.ofGraph other := by
  unfold Numbering.ofGraph
  rw [rearranges.vertexList]

private theorem allEdges : graph.allEdges = other.allEdges :=
  Set.ext fun _ => rearranges.mem_edges

private theorem leaders : graph.leaders = other.leaders := by
  have leads : graph.Leads = other.Leads := by
    funext vertex
    simp only [Leads, Connected, rearranges.allEdges, rearranges.mem_vertices]
  unfold Graph.leaders
  rw [leads, rearranges.vertexList]

theorem pieceNumber?_eq : graph.pieceNumber? = other.pieceNumber? := by
  ext vertex number
  rw [pieceNumber?_eq_some_iff rearranges.built, pieceNumber?_eq_some_iff rearranges.otherBuilt]
  simp only [rearranges.leaders, Connected, rearranges.allEdges]

theorem pieceCount_eq : graph.pieceCount = other.pieceCount := by
  rw [Graph.pieceCount_eq rearranges.built, Graph.pieceCount_eq rearranges.otherBuilt,
    rearranges.leaders]

theorem reaches {start stop : Vertex} : (Components.ofGraph graph).reaches start stop =
    (Components.ofGraph other).reaches start stop := by
  rw [Bool.eq_iff_iff, Components.reaches_eq_true_iff rearranges.built,
    Components.reaches_eq_true_iff rearranges.otherBuilt]
  simp only [Reaches, rearranges.mem_vertices, rearranges.mem_edges]

/-! ## Parts of rearranged graphs -/

theorem filter (test : Edge → Bool) : (ofEdges (graph.edges.toList.filter test)).Rearranges
    (ofEdges (other.edges.toList.filter test)) :=
  rearranges_ofEdges (rearranges.edges.filter test)

private theorem add (edge : Edge) : (graph.add edge).Rearranges (other.add edge) where
  built := .add edge rearranges.built
  otherBuilt := .add edge rearranges.otherBuilt
  edges := by
    rw [toList_edges_add, toList_edges_add]
    simp only [rearranges.mem_vertices]
    exact rearranges.edges.append_right _

private theorem coverVertex (vertex : Vertex) :
    (graph.coverVertex vertex).Rearranges (other.coverVertex vertex) := by
  unfold Graph.coverVertex
  rw [rearranges.containsVertex]
  split
  · exact rearranges
  · exact rearranges.add _

private theorem coverVertices (vertices : List Vertex) :
    (graph.coverVertices vertices).Rearranges (other.coverVertices vertices) := by
  induction vertices generalizing graph other with
  | nil => exact rearranges
  | cons vertex vertices induction => exact induction (rearranges.coverVertex vertex)

theorem pieces : List.Forall₂ Rearranges graph.pieces other.pieces := by
  rw [pieces_eq, pieces_eq, rearranges.pieceCount_eq, List.forall₂_map_left_iff,
    List.forall₂_map_right_iff]
  refine List.forall₂_same.mpr fun number _ => ?_
  unfold pieceAt verticesAt edgesAt properEdges
  rw [rearranges.pieceNumber?_eq, rearranges.vertexList]
  exact (rearranges_ofEdges ((rearranges.edges.filter _).filter _)).coverVertices _

theorem restrictTo (targets : List Span) :
    (graph.restrictTo targets).Rearranges (other.restrictTo targets) := by
  have between : ∀ edge ∈ graph.edges.toList,
      isBetween (.ofGraph graph)
        (Std.TreeSet.ofList (targets.filterMap (componentSpan? (.ofGraph graph)))).toList edge =
      isBetween (.ofGraph other)
        (Std.TreeSet.ofList (targets.filterMap (componentSpan? (.ofGraph other)))).toList
        edge := by
    intro edge member
    have inside : edge ∈ graph.edges := by simpa using member
    rw [Bool.eq_iff_iff, isBetween_iff rearranges.built inside,
      isBetween_iff rearranges.otherBuilt (rearranges.mem_edges.mp inside)]
    simp only [rearranges.reaches]
  unfold Graph.restrictTo coversAllPairs
  rw [rearranges.vertexCount]
  split
  · exact rearranges
  · simp only
    rw [List.filter_congr fun edge member => congrArg (!edge.isEpsilonLoop && ·)
      (between edge member)]
    exact rearranges.filter _

private theorem unconnected (layers : Nat) :
    LayeredGraph.unconnected graph layers = .unconnected other layers := by
  unfold LayeredGraph.unconnected
  rw [rearranges.numbering]

theorem ofCopies (layers : Nat) (copies : Edge → List ((Nat × Nat) × Label)) :
    (LayeredGraph.ofCopies graph layers copies).graph.Rearranges
      (LayeredGraph.ofCopies other layers copies).graph := by
  rw [LayeredGraph.ofCopies_eq, LayeredGraph.ofCopies_eq, rearranges.unconnected]
  exact rearranges_ofEdges ((rearranges.edges.filter _).flatMap_right _)

theorem split_ofCopies (layers : Nat) (copies : Edge → List ((Nat × Nat) × Label))
    (pair : Vertex) : (LayeredGraph.ofCopies graph layers copies).split pair =
      (LayeredGraph.ofCopies other layers copies).split pair := by
  rw [LayeredGraph.ofCopies_eq, LayeredGraph.ofCopies_eq, rearranges.unconnected]
  rfl

end Rearranges

end Graph

end GrammarReach
