import GrammarReach.Graph.Basic

/-!
# Numbering vertices

The vertices of a graph are numbered from zero in ascending order.
-/

namespace GrammarReach

/-- The vertices of a graph by number, and their numbers. -/
structure Numbering where
  vertices : Array Vertex := #[]
  numbers : Std.TreeMap Vertex Nat := ∅

namespace Numbering

/-- The numbering of the vertices of a graph. -/
def ofGraph (graph : Graph) : Numbering where
  vertices := graph.vertexList.toArray
  numbers := graph.vertexList.zipIdx.foldl
    (fun numbers (vertex, number) => numbers.insert vertex number) ∅

def number? (numbering : Numbering) (vertex : Vertex) : Option Nat :=
  numbering.numbers[vertex]?

def vertex? (numbering : Numbering) (number : Nat) : Option Vertex :=
  numbering.vertices[number]?

end Numbering

end GrammarReach
