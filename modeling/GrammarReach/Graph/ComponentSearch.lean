import GrammarReach.Graph.Basic

/-!
# The search for strongly connected components

A depth-first search in the manner of Tarjan.  Every vertex is discovered once and then
waits on a stack until its component is complete.  The low mark of a vertex on the way is
the place of a waiting vertex that it is known to reach.  A vertex whose low mark is still
its own place when it is left completes a component.  A component is completed after all
components that it leads to.
-/

namespace GrammarReach

/-- A vertex on the way of the search, with the successors that are still ahead. -/
structure Frame where
  vertex : Vertex
  ahead : List Vertex
deriving DecidableEq, Repr

/-- The state of the search.  Places count the vertices in the order of discovery. -/
structure ComponentSearch where
  places : Std.TreeMap Vertex Nat := ∅
  lows : Std.TreeMap Vertex Nat := ∅
  waiting : VertexSet := ∅
  stack : List Vertex := []
  frames : List Frame := []
  components : Array (List Vertex) := #[]
  discovered : Nat := 0

namespace ComponentSearch

def low (search : ComponentSearch) (vertex : Vertex) : Nat :=
  search.lows.getD vertex 0

/-- Steps forward to a new vertex. -/
def discover (graph : Graph) (search : ComponentSearch) (vertex : Vertex) :
    ComponentSearch :=
  { search with
    places := search.places.insert vertex search.discovered
    lows := search.lows.insert vertex search.discovered
    waiting := search.waiting.insert vertex
    stack := vertex :: search.stack
    frames := ⟨vertex, (graph.successors vertex).toList⟩ :: search.frames
    discovered := search.discovered + 1 }

/-- Lowers the mark of a vertex to a place, unless it is as low already. -/
def lower (search : ComponentSearch) (vertex : Vertex) (place : Nat) : ComponentSearch :=
  { search with lows := search.lows.insert vertex (min (search.low vertex) place) }

/-- Looks along an edge.  A new vertex is discovered, and a waiting one lowers the mark of
the vertex that the edge leaves. -/
def look (graph : Graph) (search : ComponentSearch) (vertex next : Vertex) :
    ComponentSearch :=
  match search.places[next]? with
  | none => search.discover graph next
  | some place => if search.waiting.contains next then search.lower vertex place else search

/-- The vertices on a stack down to the given one, and those below it. -/
def popThrough (vertex : Vertex) : List Vertex → List Vertex × List Vertex
  | [] => ([], [])
  | top :: rest =>
      if top = vertex then ([top], rest)
      else
        let (popped, rest) := popThrough vertex rest
        (top :: popped, rest)

/-- Takes a component off the stack, down to its first vertex. -/
def complete (search : ComponentSearch) (vertex : Vertex) : ComponentSearch :=
  let (members, rest) := popThrough vertex search.stack
  { search with
    waiting := members.foldl (fun waiting member => waiting.erase member) search.waiting
    stack := rest
    components := search.components.push members }

/-- Lowers the mark of the last vertex on the way, if there is one. -/
def handDown (search : ComponentSearch) (low : Nat) : ComponentSearch :=
  match search.frames with
  | [] => search
  | frame :: _ => search.lower frame.vertex low

/-- Steps back from a vertex.  Its mark is handed down to the vertex before it on the way,
and its component is completed if nothing below it was reached. -/
def leave (search : ComponentSearch) (vertex : Vertex) : ComponentSearch :=
  let low := search.low vertex
  let search := search.handDown low
  if search.places[vertex]? = some low then search.complete vertex else search

def step (graph : Graph) (search : ComponentSearch) : ComponentSearch :=
  match search.frames with
  | [] => search
  | ⟨vertex, []⟩ :: below => { search with frames := below }.leave vertex
  | ⟨vertex, next :: ahead⟩ :: below =>
      { search with frames := ⟨vertex, ahead⟩ :: below }.look graph vertex next

/-- Steps until there is no vertex on the way, at most as often as the bound says. -/
def run (graph : Graph) : Nat → ComponentSearch → ComponentSearch
  | 0, search => search
  | bound + 1, search =>
      if search.frames.isEmpty then search else run graph bound (search.step graph)

/-- Searches from a vertex unless it was discovered before.  Each vertex is left once and
each edge is looked along once, which bounds the steps. -/
def searchFrom (graph : Graph) (search : ComponentSearch) (root : Vertex) : ComponentSearch :=
  if search.places.contains root then search
  else (search.discover graph root).run graph (graph.vertexCount + graph.edgeCount)

/-- Searches from all vertices in ascending order. -/
def ofGraph (graph : Graph) : ComponentSearch :=
  graph.vertexList.foldl (searchFrom graph) {}

end ComponentSearch

end GrammarReach
