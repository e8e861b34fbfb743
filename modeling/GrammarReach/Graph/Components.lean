import GrammarReach.Container.BitMatrix
import GrammarReach.Graph.ComponentSearch

/-!
# Strongly connected components

Two vertices are in one component when each reaches the other along edges of any
label.  Components are numbered in the order in which the search completes them, so an
edge never leads from a component to one with a larger number, and what a component
reaches can be put together from what the components before it reach.
-/

namespace GrammarReach

/-- The component of every vertex of a graph, and which components reach which. -/
structure Components where
  componentOf : Std.TreeMap Vertex Nat := ∅
  reach : BitMatrix := {}

namespace Components

/-- The number of the component that each vertex is a member of. -/
def numberMembers (components : List (List Vertex)) : Std.TreeMap Vertex Nat :=
  components.zipIdx.foldl
    (fun found (members, number) =>
      members.foldl (fun found member => found.insert member number) found) ∅

/-- Lets a row take over the row of the component of a successor, unless this is the
component of the row or in the row already. -/
def takeOver (componentOf : Std.TreeMap Vertex Nat) (reach : BitMatrix) (row : Nat)
    (next : Vertex) : Nat :=
  match componentOf[next]? with
  | none => row
  | some number =>
      if number = reach.rows.size ∨ row.testBit number then row else row ||| reach.row number

/-- Appends the row of a component with the given members. -/
def addRow (graph : Graph) (componentOf : Std.TreeMap Vertex Nat) (reach : BitMatrix)
    (members : List Vertex) : BitMatrix :=
  let successors := members.flatMap fun member => (graph.successors member).toList
  ⟨reach.rows.push
    (successors.foldl (takeOver componentOf reach) (BitMatrix.bitsOf [reach.rows.size]))⟩

/-- The rows of components, from the first one on. -/
def rowsOf (graph : Graph) (componentOf : Std.TreeMap Vertex Nat)
    (components : List (List Vertex)) : BitMatrix :=
  components.foldl (addRow graph componentOf) {}

def ofGraph (graph : Graph) : Components :=
  let components := (ComponentSearch.ofGraph graph).components.toList
  let componentOf := numberMembers components
  { componentOf, reach := rowsOf graph componentOf components }

def size (components : Components) : Nat :=
  components.reach.rows.size

/-- The number of the component of a vertex. -/
def component? (components : Components) (vertex : Vertex) : Option Nat :=
  components.componentOf[vertex]?

/-- The vertices of the first component reach those of the second one. -/
def componentReaches (components : Components) (source target : Nat) : Bool :=
  components.reach.holds source target

/-- The first vertex reaches the second one along zero or more edges.  Vertices
outside the graph reach nothing. -/
def reaches (components : Components) (source target : Vertex) : Bool :=
  match components.component? source, components.component? target with
  | some sourceComponent, some targetComponent =>
      components.componentReaches sourceComponent targetComponent
  | _, _ => false

/-- The vertices of a component in ascending order. -/
def members (components : Components) (component : Nat) : List Vertex :=
  components.componentOf.keys.filter fun vertex =>
    components.component? vertex == some component

end Components

end GrammarReach
