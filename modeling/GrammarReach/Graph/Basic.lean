import GrammarReach.Container.Keyed
import GrammarReach.Grammar.Rule
import GrammarReach.Text.Numeral
import Std.Data.TreeSet.Lemmas

/-!
# Labelled graphs

A graph is a row of labelled edges with indices for following them.  The first
time a vertex occurs it receives a loop with the epsilon label, which counts as
an edge.
-/

namespace GrammarReach

/-- The name of a vertex. -/
abbrev Vertex := Nat

/-- A labelled edge. -/
structure Edge where
  source : Vertex
  target : Vertex
  label : Label
deriving DecidableEq, Repr

/-- A pair of vertices: where a walk starts and where it stops. -/
structure Span where
  start : Vertex
  stop : Vertex
deriving DecidableEq, Repr

/-- A vertex together with a label: where edges with that label leave or
arrive. -/
structure Junction where
  vertex : Vertex
  label : Label
deriving DecidableEq, Repr

namespace Edge

/-- Edges are ordered by source, then target, then label. -/
def order : Edge → Edge → Ordering :=
  compareLex (compareOn Edge.source) (compareLex (compareOn Edge.target) (compareOn Edge.label))

instance : Ord Edge := ⟨order⟩

instance : Std.TransOrd Edge :=
  inferInstanceAs (Std.TransCmp (compareLex (compareOn Edge.source)
    (compareLex (compareOn Edge.target) (compareOn Edge.label))))

instance : Std.LawfulEqOrd Edge where
  eq_of_compare {left right} same := by
    obtain ⟨leftSource, leftTarget, leftLabel⟩ := left
    obtain ⟨rightSource, rightTarget, rightLabel⟩ := right
    have sources := Ordering.then_eq_eq.mp same
    have targets := Ordering.then_eq_eq.mp sources.2
    have sameSource : leftSource = rightSource := Std.LawfulEqOrd.eq_of_compare sources.1
    have sameTarget : leftTarget = rightTarget := Std.LawfulEqOrd.eq_of_compare targets.1
    have sameLabel : leftLabel = rightLabel := Std.LawfulEqOrd.eq_of_compare targets.2
    subst sameSource sameTarget sameLabel
    rfl

def loopAt (vertex : Vertex) : Edge :=
  ⟨vertex, vertex, Grammar.epsilon⟩

def isEpsilon (edge : Edge) : Bool :=
  edge.label == Grammar.epsilon

/-- The edge is the epsilon loop of its vertex. -/
def isEpsilonLoop (edge : Edge) : Bool :=
  edge.source == edge.target && edge.isEpsilon

/-- The written form of an edge; the label is not escaped. -/
def text (edge : Edge) : String :=
  Text.decimal edge.source ++ "->" ++ Text.decimal edge.target ++ "[label=\"" ++
    edge.label ++ "\"]"

end Edge

namespace Span

def order : Span → Span → Ordering :=
  compareLex (compareOn Span.start) (compareOn Span.stop)

instance : Ord Span := ⟨order⟩

instance : Std.TransOrd Span :=
  inferInstanceAs (Std.TransCmp (compareLex (compareOn Span.start) (compareOn Span.stop)))

instance : Std.LawfulEqOrd Span where
  eq_of_compare {left right} same := by
    obtain ⟨leftStart, leftStop⟩ := left
    obtain ⟨rightStart, rightStop⟩ := right
    have fields := Ordering.then_eq_eq.mp same
    have sameStart : leftStart = rightStart := Std.LawfulEqOrd.eq_of_compare fields.1
    have sameStop : leftStop = rightStop := Std.LawfulEqOrd.eq_of_compare fields.2
    subst sameStart sameStop
    rfl

def isReflexive (span : Span) : Bool :=
  span.start == span.stop

/-- The written form of a span as a segment. -/
def text (span : Span) : String :=
  "[" ++ Text.decimal span.start ++ " " ++ Text.decimal span.stop ++ "]"

end Span

namespace Junction

def order : Junction → Junction → Ordering :=
  compareLex (compareOn Junction.vertex) (compareOn Junction.label)

instance : Ord Junction := ⟨order⟩

instance : Std.TransOrd Junction :=
  inferInstanceAs (Std.TransCmp (compareLex (compareOn Junction.vertex) (compareOn Junction.label)))

instance : Std.LawfulEqOrd Junction where
  eq_of_compare {left right} same := by
    obtain ⟨leftVertex, leftLabel⟩ := left
    obtain ⟨rightVertex, rightLabel⟩ := right
    have fields := Ordering.then_eq_eq.mp same
    have sameVertex : leftVertex = rightVertex := Std.LawfulEqOrd.eq_of_compare fields.1
    have sameLabel : leftLabel = rightLabel := Std.LawfulEqOrd.eq_of_compare fields.2
    subst sameVertex sameLabel
    rfl

end Junction

/-- A set of spans, listed in ascending order. -/
abbrev SpanSet := Std.TreeSet Span

/-- A set of vertices, listed in ascending order. -/
abbrev VertexSet := Std.TreeSet Vertex

/-- One vertex, or every vertex. -/
inductive Endpoint where
  | any
  | at (vertex : Vertex)
deriving DecidableEq, Repr

/-- A labelled graph: its edges in the order in which they were added, its
vertices, and where to find the edges of a junction, a vertex or a label. -/
structure Graph where
  edges : Array Edge := #[]
  vertices : VertexSet := ∅
  outgoing : Keyed Junction Vertex := .empty
  incoming : Keyed Junction Vertex := .empty
  after : Keyed Vertex Vertex := .empty
  before : Keyed Vertex Vertex := .empty
  labelled : Keyed Label Edge := .empty

namespace Graph

def empty : Graph := {}

instance : Inhabited Graph := ⟨empty⟩

/-- Appends an edge to the edges and to every index. -/
def append (graph : Graph) (edge : Edge) : Graph where
  edges := graph.edges.push edge
  vertices := graph.vertices
  outgoing := graph.outgoing.push ⟨edge.source, edge.label⟩ edge.target
  incoming := graph.incoming.push ⟨edge.target, edge.label⟩ edge.source
  after := graph.after.push edge.source edge.target
  before := graph.before.push edge.target edge.source
  labelled := graph.labelled.push edge.label edge

def register (graph : Graph) (vertex : Vertex) : Graph :=
  if graph.vertices.contains vertex then
    graph
  else
    { graph.append (.loopAt vertex) with vertices := graph.vertices.insert vertex }

/-- Adds an edge and registers its source and its target. -/
def add (graph : Graph) (edge : Edge) : Graph :=
  ((graph.append edge).register edge.source).register edge.target

def containsEdge (graph : Graph) (edge : Edge) : Bool :=
  (graph.outgoing.row ⟨edge.source, edge.label⟩).contains edge.target

def containsVertex (graph : Graph) (vertex : Vertex) : Bool :=
  graph.vertices.contains vertex

/-- Adds an edge unless it is in the graph, and says whether it was new. -/
def insertNew (graph : Graph) (edge : Edge) : Graph × Bool :=
  if graph.containsEdge edge then (graph, false) else (graph.add edge, true)

/-- Adds an edge unless it is in the graph. -/
def addNew (graph : Graph) (edge : Edge) : Graph :=
  (graph.insertNew edge).1

/-- The graph of the given edges, repeats included. -/
def ofEdges (edges : List Edge) : Graph :=
  edges.foldl add empty

/-- The graph that holds each of the given edges once. -/
def ofDistinctEdges (edges : List Edge) : Graph :=
  edges.foldl addNew empty

/-- The graph with one edge per label, from `0` to `1`, from `1` to `2`, and so
on. -/
def ofWord (labels : List Label) : Graph :=
  ofEdges (labels.zipIdx.map fun (label, place) => ⟨place, place + 1, label⟩)

/-- The edges with a label, in the order in which they were added. -/
def edgesLabelled (graph : Graph) (label : Label) : Array Edge :=
  graph.labelled.row label

/-- The targets of the edges with a label that leave a vertex, or of all edges
with the label. -/
def targets (graph : Graph) (source : Endpoint) (label : Label) : Array Vertex :=
  match source with
  | .any => (graph.edgesLabelled label).map Edge.target
  | .at vertex => graph.outgoing.row ⟨vertex, label⟩

/-- The sources of the edges with a label that reach a vertex, or of all edges
with the label. -/
def sources (graph : Graph) (target : Endpoint) (label : Label) : Array Vertex :=
  match target with
  | .any => (graph.edgesLabelled label).map Edge.source
  | .at vertex => graph.incoming.row ⟨vertex, label⟩

/-- The targets of all edges that leave a vertex. -/
def successors (graph : Graph) (vertex : Vertex) : Array Vertex :=
  graph.after.row vertex

/-- The sources of all edges that reach a vertex. -/
def predecessors (graph : Graph) (vertex : Vertex) : Array Vertex :=
  graph.before.row vertex

def vertexList (graph : Graph) : List Vertex :=
  graph.vertices.toList

def labels (graph : Graph) : List Label :=
  graph.labelled.keys

def vertexCount (graph : Graph) : Nat :=
  graph.vertices.size

def edgeCount (graph : Graph) : Nat :=
  graph.edges.size

/-- There are as many edges as vertices, as in a graph of epsilon loops only. -/
def isTrivial (graph : Graph) : Bool :=
  graph.edgeCount == graph.vertexCount

/-- The numbers of vertices and edges in words. -/
def summary (graph : Graph) : String :=
  Text.decimal graph.vertexCount ++ " vertices, " ++ Text.decimal graph.edgeCount ++
    " edges"

end Graph

end GrammarReach
