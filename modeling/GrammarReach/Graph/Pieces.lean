import GrammarReach.Graph.Basic

/-!
# Weakly connected pieces

A graph falls into pieces that no edge joins.  A search follows the edges in both
directions from each vertex that was not seen before, in ascending order, and
gives all vertices that it meets the number of a new piece.  Each piece is a graph
of its own with the edges of its vertices; epsilon loops are made anew.
-/

namespace GrammarReach

/-- The targets and the sources of all edges that touch a vertex. -/
def Graph.neighbours (graph : Graph) (vertex : Vertex) : List Vertex :=
  (graph.successors vertex).toList ++ (graph.predecessors vertex).toList

/-- The state of a search for pieces.  Every vertex is seen once; it then waits on
a stack until it receives the number of its piece. -/
structure PieceSearch where
  seen : VertexSet := ∅
  waiting : List Vertex := []
  pieceOf : Std.TreeMap Vertex Nat := ∅
  found : Nat := 0

namespace PieceSearch

/-- Lets a vertex wait unless it was seen before. -/
def see (search : PieceSearch) (vertex : Vertex) : PieceSearch :=
  if search.seen.contains vertex then
    search
  else
    { search with
      seen := search.seen.insert vertex
      waiting := vertex :: search.waiting }

/-- Numbers the vertex that began to wait last and sees its neighbours. -/
def step (graph : Graph) (search : PieceSearch) : PieceSearch :=
  match search.waiting with
  | [] => search
  | vertex :: waiting =>
      (graph.neighbours vertex).foldl see
        { search with waiting, pieceOf := search.pieceOf.insert vertex search.found }

/-- Steps until no vertex waits, at most as often as the bound says. -/
def run (graph : Graph) : Nat → PieceSearch → PieceSearch
  | 0, search => search
  | bound + 1, search =>
      if search.waiting.isEmpty then search else run graph bound (search.step graph)

/-- Searches the piece of a vertex unless the vertex was seen before.  Each vertex
is numbered once, which bounds the steps. -/
def searchFrom (graph : Graph) (search : PieceSearch) (root : Vertex) : PieceSearch :=
  if search.seen.contains root then
    search
  else
    let search := (search.see root).run graph graph.vertexCount
    { search with found := search.found + 1 }

/-- Searches from all vertices in ascending order. -/
def ofGraph (graph : Graph) : PieceSearch :=
  graph.vertexList.foldl (searchFrom graph) {}

/-- Changes the piece of a vertex. -/
def changePiece (search : PieceSearch) (pieces : Array Graph) (vertex : Vertex)
    (change : Graph → Graph) : Array Graph :=
  match search.pieceOf[vertex]? with
  | none => pieces
  | some number => pieces.modify number change

end PieceSearch

namespace Graph

/-- The graph with a vertex, which is added through its loop if no edge touches
it. -/
def coverVertex (graph : Graph) (vertex : Vertex) : Graph :=
  if graph.containsVertex vertex then graph else graph.add (.loopAt vertex)

-- Irreducible, so that comparing two calls does not run both searches.
/-- The weakly connected pieces of a graph, ordered by their smallest vertex. -/
@[irreducible] def pieces (graph : Graph) : List Graph :=
  let search := PieceSearch.ofGraph graph
  let joined := (graph.edges.toList.filter fun edge => !edge.isEpsilonLoop).foldl
    (fun pieces edge => search.changePiece pieces edge.source (·.add edge))
    (Array.replicate search.found .empty)
  let covered := graph.vertexList.foldl
    (fun pieces vertex => search.changePiece pieces vertex (·.coverVertex vertex)) joined
  covered.toList

end Graph

end GrammarReach
