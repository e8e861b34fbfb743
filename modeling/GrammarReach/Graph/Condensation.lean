import GrammarReach.Container.DisjointSets
import GrammarReach.Graph.Basic

/-!
# Condensation

Vertices that are known to reach each other can be merged into one, which stands
for all of them.
-/

namespace GrammarReach

/-- A graph of representatives, the representative of every vertex, and the
members of every group under their representative. -/
structure Condensation where
  graph : Graph
  representatives : Std.TreeMap Vertex Vertex
  groups : Std.TreeMap Vertex (List Vertex)

namespace Condensation

/-- A set for every vertex of a graph. -/
def apart (graph : Graph) : DisjointSets Vertex :=
  graph.vertexList.foldl (fun sets vertex => sets.insert vertex) .empty

/-- Joins the sets of the ends of a span if both are known. -/
def joinEnds (sets : DisjointSets Vertex) (span : Span) : DisjointSets Vertex :=
  let (startRoot, sets) := sets.find span.start
  match startRoot with
  | none => sets
  | some startRoot =>
      let (stopRoot, sets) := sets.find span.stop
      match stopRoot with
      | none => sets
      | some stopRoot =>
          if startRoot = stopRoot then sets else (sets.union startRoot stopRoot).2

/-- The spans between different vertices that are known in both directions. -/
def mutualSpans (known : SpanSet) : List Span :=
  known.toList.filter fun span =>
    !span.isReflexive && known.contains ⟨span.stop, span.start⟩

/-- Every vertex of some groups with the representative of its group. -/
def representativesOf (groups : List (Vertex × List Vertex)) : Std.TreeMap Vertex Vertex :=
  groups.foldl
    (fun found (root, members) =>
      members.foldl (fun found member => found.insert member root) found)
    ∅

/-- Merges all vertices of a graph that are known to reach each other.  Each edge
besides epsilon edges joins the representatives of its ends, and equal edges are
kept once. -/
def ofKnown (graph : Graph) (known : SpanSet) : Condensation :=
  let (groups, _) := ((mutualSpans known).foldl joinEnds (apart graph)).groups
  let representatives := representativesOf groups
  let place (vertex : Vertex) : Vertex := representatives.getD vertex vertex
  { graph := .ofDistinctEdges ((graph.edges.toList.filter fun edge => !edge.isEpsilon).map
      fun edge => ⟨place edge.source, place edge.target, edge.label⟩)
    representatives
    groups := groups.foldl (fun found (root, members) => found.insert root members) ∅ }

/-- The representative of a vertex; an unknown vertex stands for itself. -/
def representative (condensation : Condensation) (vertex : Vertex) : Vertex :=
  condensation.representatives.getD vertex vertex

/-- The representatives of the ends of a span. -/
def lift (condensation : Condensation) (span : Span) : Span :=
  ⟨condensation.representative span.start, condensation.representative span.stop⟩

/-- The members of the group of a representative; other vertices have none. -/
def members (condensation : Condensation) (representative : Vertex) : List Vertex :=
  condensation.groups.getD representative []

/-- The members of the group of a representative; another vertex is its own
group. -/
def group (condensation : Condensation) (vertex : Vertex) : List Vertex :=
  condensation.groups.getD vertex [vertex]

/-- The number of vertices that share their group with another one. -/
def mergedVertexCount (condensation : Condensation) : Nat :=
  (condensation.groups.values.filter fun members => members.length > 1).foldl
    (fun count members => count + members.length) 0

/-- The spans from a vertex of the first list to a different one of the second. -/
def spansBetween (starts stops : List Vertex) : List Span :=
  starts.flatMap fun start =>
    (stops.filter fun stop => start ≠ stop).map fun stop => ⟨start, stop⟩

/-- All spans between members of the groups at the ends of the given spans, and
those within a group whose representative occurs in the condensed graph. -/
def expand (condensation : Condensation) (spans : List Span) : SpanSet :=
  .ofList
    (spans.flatMap (fun span =>
        spansBetween (condensation.group span.start) (condensation.group span.stop)) ++
      condensation.graph.vertexList.flatMap fun representative =>
        spansBetween (condensation.members representative)
          (condensation.members representative))

end Condensation

end GrammarReach
