import GrammarReach.Graph.Numbering
import GrammarReach.Proofs.Graph.Indices

/-!
# The numbers of vertices

In the numbering of a graph, a vertex has a number exactly when it belongs to the
graph, and the number is its place among the vertices.
-/

namespace GrammarReach

namespace Graph

theorem mem_vertexList {graph : Graph} {vertex : Vertex} :
    vertex ∈ graph.vertexList ↔ vertex ∈ graph.vertices := by
  simp [vertexList]

theorem nodup_vertexList (graph : Graph) : graph.vertexList.Nodup := by
  have distinct := Std.TreeSet.distinct_toList (t := graph.vertices)
  exact distinct.imp fun {first second} different same => different (by simp [same])

end Graph

theorem getElem?_foldl_insert_same {α : Type} (members : List Vertex) (value : α)
    (found : Std.TreeMap Vertex α) (vertex : Vertex) :
    (members.foldl (fun found member => found.insert member value) found)[vertex]? =
      if vertex ∈ members then some value else found[vertex]? := by
  induction members generalizing found with
  | nil => simp
  | cons member members induction =>
      rw [List.foldl_cons, induction, Std.TreeMap.getElem?_insert]
      by_cases later : vertex ∈ members
      · simp [later]
      · by_cases same : member = vertex
        · simp [same]
        · simp [later, same, Ne.symm same]

namespace Numbering

private theorem getElem?_foldl_insert (vertices : List Vertex)
    (nodup : vertices.Nodup) (offset : Nat) (numbers : Std.TreeMap Vertex Nat)
    (vertex : Vertex) :
    ((vertices.zipIdx offset).foldl
        (fun (numbers : Std.TreeMap Vertex Nat) (item : Vertex × Nat) =>
          numbers.insert item.1 item.2) numbers)[vertex]? =
      if vertex ∈ vertices then some (offset + vertices.idxOf vertex)
      else numbers[vertex]? := by
  induction vertices generalizing offset numbers with
  | nil => simp
  | cons first vertices induction =>
      obtain ⟨fresh, rest⟩ := List.nodup_cons.mp nodup
      rw [List.zipIdx_cons, List.foldl_cons, induction rest]
      by_cases same : first = vertex
      · subst same
        simp [fresh]
      · have different : vertex ≠ first := fun equality => same equality.symm
        by_cases member : vertex ∈ vertices
        · have place : (first :: vertices).idxOf vertex =
              vertices.idxOf vertex + 1 := by
            rw [List.idxOf_cons, beq_false_of_ne same, cond_false]
          simp [member, place]
          omega
        · simp [member, different, Std.TreeMap.getElem?_insert, same]

theorem number?_ofGraph (graph : Graph) (vertex : Vertex) :
    (ofGraph graph).number? vertex =
      if vertex ∈ graph.vertexList then some (graph.vertexList.idxOf vertex)
      else none := by
  have looked := getElem?_foldl_insert graph.vertexList graph.nodup_vertexList
    0 ∅ vertex
  simpa [number?, ofGraph] using looked

theorem number?_eq_some_iff {graph : Graph} {vertex : Vertex} {number : Nat} :
    (ofGraph graph).number? vertex = some number ↔
      graph.vertexList[number]? = some vertex := by
  rw [number?_ofGraph]
  by_cases member : vertex ∈ graph.vertexList
  · rw [if_pos member]
    have inside := List.idxOf_lt_length_of_mem member
    constructor
    · intro same
      cases same
      rw [List.getElem?_eq_getElem inside, List.getElem_idxOf]
    · intro found
      obtain ⟨bound, equality⟩ := List.getElem?_eq_some_iff.mp found
      subst equality
      rw [graph.nodup_vertexList.idxOf_getElem]
  · rw [if_neg member]
    constructor
    · intro impossible
      cases impossible
    · intro found
      exact absurd (List.mem_of_getElem? found) member

theorem exists_number_iff {graph : Graph} {vertex : Vertex} :
    (∃ number, (ofGraph graph).number? vertex = some number) ↔
      vertex ∈ graph.vertices := by
  rw [number?_ofGraph, ← Graph.mem_vertexList]
  by_cases member : vertex ∈ graph.vertexList
  · simp [member]
  · simp [member]

end Numbering

end GrammarReach
