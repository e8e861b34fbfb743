import GrammarReach.Proofs.Graph.Indices
import GrammarReach.Proofs.Graph.Numbering
import Mathlib.Algebra.GroupWithZero.Nat
import Mathlib.Data.List.Perm.Subperm

/-!
# Sizes of graphs

The number of edges of a graph counts the epsilon loops.  What shrinks in a
reduction is the number of labelled edges together with the number of vertices.
-/

namespace GrammarReach

namespace Graph

theorem labelledEdges_add (graph : Graph) (edge : Edge) :
    (graph.add edge).labelledEdges =
      graph.labelledEdges ++ [edge].filter fun edge => !edge.isEpsilon := by
  simp only [labelledEdges, toList_edges_add, List.filter_append, List.filter_cons,
    List.filter_nil]
  split <;> split <;> split <;> simp

theorem labelledEdges_ofEdges (edges : List Edge) :
    (ofEdges edges).labelledEdges = edges.filter fun edge => !edge.isEpsilon := by
  have general : ∀ graph : Graph, (edges.foldl add graph).labelledEdges =
      graph.labelledEdges ++ edges.filter fun edge => !edge.isEpsilon := by
    induction edges with
    | nil => simp
    | cons edge edges induction =>
        intro graph
        rw [List.foldl_cons, induction, labelledEdges_add, List.append_assoc,
          ← List.filter_append]
        rfl
  exact general .empty

/-- Leaving repeats out leaves every labelled edge once. -/
theorem nodup_labelledEdges_ofDistinctEdges (edges : List Edge) :
    (ofDistinctEdges edges).labelledEdges.Nodup := by
  have general : ∀ graph : Graph, graph.Built → graph.labelledEdges.Nodup →
      (edges.foldl addNew graph).labelledEdges.Nodup := by
    induction edges with
    | nil => exact fun _ _ distinct => distinct
    | cons edge edges induction =>
        intro graph built distinct
        refine induction _ (built.addNew edge) ?_
        unfold addNew insertNew
        by_cases known : graph.containsEdge edge = true
        · rwa [if_pos known]
        · have fresh : edge ∉ graph.edges := fun member =>
            known (built.indexed.containsEdge_iff.mpr member)
          rw [if_neg known, labelledEdges_add]
          refine List.nodup_append.mpr ⟨distinct, ?_, ?_⟩
          · exact (List.nodup_cons.mpr ⟨List.not_mem_nil, List.nodup_nil⟩).sublist
              List.filter_sublist
          · rintro other old _ new rfl
            rw [List.mem_singleton.mp (List.mem_filter.mp new).1] at old
            exact fresh (mem_labelledEdges.mp old).1
  exact general .empty .empty List.nodup_nil

private theorem edgeCount_register (graph : Graph) (vertex : Vertex) :
    (graph.register vertex).edgeCount + graph.vertexCount =
      graph.edgeCount + (graph.register vertex).vertexCount := by
  unfold register
  split
  · rfl
  · rename_i unknown
    simp only [edgeCount, vertexCount, append, Array.size_push, Std.TreeSet.size_insert,
      unknown, Bool.false_eq_true, if_false]
    omega

private theorem edgeCount_add (graph : Graph) (edge : Edge) :
    (graph.add edge).edgeCount + graph.vertexCount =
      graph.edgeCount + 1 + (graph.add edge).vertexCount := by
  have first := edgeCount_register (graph.append edge) edge.source
  have second := edgeCount_register ((graph.append edge).register edge.source) edge.target
  have appended : (graph.append edge).edgeCount = graph.edgeCount + 1 := by
    simp [edgeCount, append]
  have kept : (graph.append edge).vertexCount = graph.vertexCount := rfl
  unfold add
  omega

/-- The graph of some edges has these and a loop for every vertex. -/
theorem edgeCount_ofEdges (edges : List Edge) :
    (ofEdges edges).edgeCount = edges.length + (ofEdges edges).vertexCount := by
  have general : ∀ graph : Graph, (edges.foldl add graph).edgeCount + graph.vertexCount =
      graph.edgeCount + edges.length + (edges.foldl add graph).vertexCount := by
    induction edges with
    | nil => simp
    | cons edge edges induction =>
        intro graph
        have rest := induction (graph.add edge)
        have added := edgeCount_add graph edge
        rw [List.foldl_cons, List.length_cons]
        omega
  have total := general .empty
  have noEdges : Graph.empty.edgeCount = 0 := rfl
  have noVertices : Graph.empty.vertexCount = 0 := rfl
  rw [noEdges, noVertices] at total
  unfold ofEdges
  omega

theorem length_vertexList (graph : Graph) : graph.vertexList.length = graph.vertexCount :=
  Std.TreeSet.length_toList

/-- The number of labelled edges and vertices. -/
def weight (graph : Graph) : Nat :=
  graph.labelledEdges.length + graph.vertexCount

theorem edgeCount_ofEdges_labelled {edges : List Edge}
    (labelled : ∀ edge ∈ edges, edge.isEpsilon = false) :
    (ofEdges edges).edgeCount = (ofEdges edges).weight := by
  have all : (edges.filter fun edge => !edge.isEpsilon) = edges :=
    List.filter_eq_self.mpr fun edge member => by simp [labelled edge member]
  rw [edgeCount_ofEdges, weight, labelledEdges_ofEdges, all]

theorem Built.weight_le {graph : Graph} (built : graph.Built) :
    graph.weight ≤ graph.edgeCount := by
  obtain ⟨edges, rfl⟩ := built.eq_ofEdges
  rw [weight, labelledEdges_ofEdges, edgeCount_ofEdges]
  exact Nat.add_le_add_right (List.length_filter_le _ _) _

theorem Built.isTrivial_of_labelled {graph : Graph} (built : graph.Built) {edge : Edge}
    (member : edge ∈ graph.labelledEdges) : graph.isTrivial = false := by
  have positive : 0 < graph.labelledEdges.length := List.length_pos_of_mem member
  have weighs := built.weight_le
  unfold Graph.weight at weighs
  simp only [Graph.isTrivial, beq_eq_false_iff_ne]
  omega

theorem vertexCount_le {graph other : Graph}
    (sub : ∀ vertex ∈ graph.vertices, vertex ∈ other.vertices) :
    graph.vertexCount ≤ other.vertexCount := by
  rw [← length_vertexList, ← length_vertexList]
  refine (graph.nodup_vertexList.subperm fun vertex member => ?_).length_le
  exact mem_vertexList.mpr (sub vertex (mem_vertexList.mp member))

theorem labelledEdges_subset_of_weight_le {graph other : Graph}
    (distinct : graph.labelledEdges.Nodup)
    (sub : ∀ edge ∈ graph.labelledEdges, edge ∈ other.labelledEdges)
    (vertices : ∀ vertex ∈ graph.vertices, vertex ∈ other.vertices)
    (heavy : other.weight ≤ graph.weight) :
    ∀ edge ∈ other.labelledEdges, edge ∈ graph.labelledEdges := by
  have fewer := vertexCount_le vertices
  have longer : other.labelledEdges.length ≤ graph.labelledEdges.length := by
    unfold weight at heavy
    omega
  have same := (distinct.subperm sub).perm_of_length_le longer
  exact fun edge member => same.mem_iff.mpr member

theorem Built.weight_ofEdges_filter_le {graph : Graph} (built : graph.Built)
    (test : Edge → Bool) :
    (ofEdges (graph.edges.toList.filter test)).weight ≤ graph.weight := by
  refine Nat.add_le_add ?_ (vertexCount_le fun vertex member => ?_)
  · rw [labelledEdges_ofEdges, List.filter_comm]
    exact List.length_filter_le _ _
  · obtain ⟨edge, kept, role⟩ := mem_vertices_ofEdges.mp member
    have inGraph : edge ∈ graph.edges := by simpa using (List.mem_filter.mp kept).1
    rcases role with rfl | rfl
    · exact built.closed.source_mem edge inGraph
    · exact built.closed.target_mem edge inGraph

/-- Items counted under different keys are counted at most once. -/
theorem sum_length_filter_le {α : Type} {keys : List Nat} (nodup : keys.Nodup)
    (key? : α → Option Nat) (items : List α) :
    (keys.map fun key => (items.filter fun item => key? item == some key).length).sum ≤
      items.length := by
  induction keys generalizing items with
  | nil => simp
  | cons key keys induction =>
      obtain ⟨fresh, nodup⟩ := List.nodup_cons.mp nodup
      let others := items.filter fun item => !(key? item == some key)
      have restricted : ∀ other ∈ keys,
          (items.filter fun item => key? item == some other).length =
            (others.filter fun item => key? item == some other).length := by
        intro other member
        have different : other ≠ key := fun same => fresh (same ▸ member)
        rw [List.filter_filter]
        congr 1
        apply List.filter_congr
        intro item _
        by_cases found : key? item = some other
        · simp [found, different]
        · simp [found]
      have rest := induction nodup others
      rw [List.map_cons, List.sum_cons, List.map_congr_left restricted]
      have split : items.length =
          (items.filter fun item => key? item == some key).length + others.length :=
        items.length_eq_length_filter_add fun item => key? item == some key
      omega

end Graph

end GrammarReach
