import GrammarReach.Proofs.Graph.Walks
import Mathlib.Data.Set.Basic
import Mathlib.Logic.Relation

/-!
# Linked edges

Edges hang together with a vertex when they can be reached from it in any directions.  A
walk lies among them as soon as one of its edges does.
-/

namespace GrammarReach

/-- The labelled edges of a graph as a set. -/
def Graph.edgeSet (graph : Graph) : Set Edge :=
  {edge | edge ∈ graph.labelledEdges}

/-- All edges of a graph as a set. -/
def Graph.allEdges (graph : Graph) : Set Edge :=
  {edge | edge ∈ graph.edges}

/-- The vertices are the ends of an edge of the set, in either order. -/
def Touches (kept : Set Edge) (first second : Vertex) : Prop :=
  ∃ edge ∈ kept, (edge.source = first ∧ edge.target = second) ∨
    (edge.source = second ∧ edge.target = first)

/-- Edges of the set lead from one vertex to the other, in any directions. -/
def Linked (kept : Set Edge) : Vertex → Vertex → Prop :=
  Relation.ReflTransGen (Touches kept)

/-- Every edge of the set hangs together with the vertex. -/
def ConnectedAt (kept : Set Edge) (vertex : Vertex) : Prop :=
  ∀ edge ∈ kept, Linked kept vertex edge.source

/-- The edges of a set that hang together with a vertex. -/
def linkedEdges (kept : Set Edge) (vertex : Vertex) : Set Edge :=
  {edge | edge ∈ kept ∧ Linked kept vertex edge.source}

section Linked

variable {kept : Set Edge} {vertex start stop : Vertex} {path : List Edge}

theorem linkedEdges_subset (kept : Set Edge) (vertex : Vertex) :
    linkedEdges kept vertex ⊆ kept :=
  fun _ => And.left

theorem touches_of_edge {edge : Edge} (member : edge ∈ kept) :
    Touches kept edge.source edge.target :=
  ⟨edge, member, Or.inl ⟨rfl, rfl⟩⟩

theorem touches_symm {first second : Vertex} (touches : Touches kept first second) :
    Touches kept second first :=
  touches.imp fun _ ends => ⟨ends.1, ends.2.symm⟩

theorem Linked.symm {first second : Vertex} (linked : Linked kept first second) :
    Linked kept second first := by
  induction linked with
  | refl => exact .refl
  | tail _ step induction => exact .head (touches_symm step) induction

theorem linked_of_joins (joins : Joins start path stop) (inside : ∀ edge ∈ path, edge ∈ kept) :
    Linked kept start stop ∧ ∀ edge ∈ path, Linked kept start edge.source := by
  have general : ∀ {path : List Edge} {stop : Vertex}, Joins start path stop →
      (∀ edge ∈ path, edge ∈ kept) → Linked kept start stop := by
    intro path stop joins inside
    exact joins.transport (Linked kept start)
      (fun edge member linked => linked.tail (touches_of_edge (inside edge member))) .refl
  refine ⟨general joins inside, fun edge member => ?_⟩
  obtain ⟨before, behind, rfl, first, _⟩ := joins.split member
  exact general first fun other early => inside other (by simp [early])

/-- What links with the vertex does so through linked edges. -/
theorem connectedAt_linkedEdges (kept : Set Edge) (vertex : Vertex) :
    ConnectedAt (linkedEdges kept vertex) vertex := by
  have general : ∀ {other : Vertex}, Linked kept vertex other →
      Linked (linkedEdges kept vertex) vertex other := by
    intro other linked
    induction linked with
    | refl => exact .refl
    | @tail middle next before step induction =>
        refine induction.tail ?_
        obtain ⟨edge, member, ends⟩ := step
        refine ⟨edge, ⟨member, ?_⟩, ends⟩
        rcases ends with ⟨rfl, _⟩ | ⟨rfl, rfl⟩
        · exact before
        · exact before.tail (touches_symm (touches_of_edge member))
  exact fun edge member => general member.2

theorem linkedEdges_of_joins (joins : Joins vertex path stop)
    (inside : ∀ edge ∈ path, edge ∈ kept) : ∀ edge ∈ path, edge ∈ linkedEdges kept vertex :=
  fun edge member => ⟨inside edge member, (linked_of_joins joins inside).2 edge member⟩

theorem linkedEdges_of_linked (joins : Joins start path stop)
    (inside : ∀ edge ∈ path, edge ∈ kept) (linked : Linked kept vertex start) :
    ∀ edge ∈ path, edge ∈ linkedEdges kept vertex :=
  fun edge member =>
    ⟨inside edge member, linked.trans ((linked_of_joins joins inside).2 edge member)⟩

theorem linked_start_of_joins (joins : Joins start path stop)
    (inside : ∀ edge ∈ path, edge ∈ kept) (linked : Linked kept vertex stop) :
    Linked kept vertex start :=
  linked.trans (linked_of_joins joins inside).1.symm

theorem linkedEdges_of_mem (joins : Joins start path stop)
    (inside : ∀ edge ∈ path, edge ∈ kept) {edge : Edge} (onPath : edge ∈ path)
    (member : edge ∈ linkedEdges kept vertex) :
    ∀ other ∈ path, other ∈ linkedEdges kept vertex := by
  have back := ((linked_of_joins joins inside).2 edge onPath).symm
  exact linkedEdges_of_linked joins inside (member.2.trans back)

end Linked

end GrammarReach
