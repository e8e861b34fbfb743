import GrammarReach.Graph.Components

/-!
# Restriction to spans

Only the edges between the start and the stop of a wanted span can lie on a walk
from one to the other.
-/

namespace GrammarReach

namespace Graph

/-- There is a target for every pair of vertices, to judge by their number. -/
def coversAllPairs (graph : Graph) (targets : List Span) : Bool :=
  let pairs := graph.vertexCount * graph.vertexCount
  decide (pairs ≤ targets.length) && decide (pairs ≤ (Std.TreeSet.ofList targets).size)

/-- The component of the start and the component of the stop of a span. -/
def componentSpan? (components : Components) (span : Span) : Option Span :=
  match components.component? span.start, components.component? span.stop with
  | some start, some stop => some ⟨start, stop⟩
  | _, _ => none

/-- The edge lies on a walk between the components of a wanted span. -/
def isBetween (components : Components) (wanted : List Span) (edge : Edge) : Bool :=
  match componentSpan? components ⟨edge.source, edge.target⟩ with
  | none => false
  | some place =>
      wanted.any fun target =>
        components.componentReaches target.start place.start &&
          components.componentReaches place.stop target.stop

/-- The edges besides epsilon loops that lie on a walk between the ends of a
target.  The graph itself is the answer when there are targets for all pairs. -/
def restrictTo (graph : Graph) (targets : List Span) : Graph :=
  if graph.coversAllPairs targets then
    graph
  else
    let components := Components.ofGraph graph
    let wanted := (Std.TreeSet.ofList (targets.filterMap (componentSpan? components))).toList
    ofEdges (graph.edges.toList.filter fun edge =>
      !edge.isEpsilonLoop && isBetween components wanted edge)

end Graph

end GrammarReach
