import GrammarReach.Bracket.Language
import GrammarReach.Bracket.Matching
import GrammarReach.Graph.Layered
import GrammarReach.Saturation.Reachability

/-!
# Value flows

A value flow enters through an opening bracket, its source, and leaves through a
closing bracket, its sink.
-/

namespace GrammarReach

/-- The label is read as an opening bracket of the bracket family. -/
def isSourceLabel (label : Label) : Bool :=
  match BracketLabel.read label with
  | .opening .bracket _ => true
  | _ => false

/-- The label is read as a closing bracket of the bracket family. -/
def isSinkLabel (label : Label) : Bool :=
  match BracketLabel.read label with
  | .closing .bracket _ => true
  | _ => false

namespace Graph

/-- The components that the sources of a graph leave. -/
def sourceComponents (graph : Graph) (components : Components) : VertexSet :=
  .ofList ((graph.edges.toList.filter fun edge => isSourceLabel edge.label).filterMap
    fun edge => components.component? edge.source)

/-- The components that the sinks of a graph enter. -/
def sinkComponents (graph : Graph) (components : Components) : VertexSet :=
  .ofList ((graph.edges.toList.filter fun edge => isSinkLabel edge.label).filterMap
    fun edge => components.component? edge.target)

/-- The vertices between a source and a sink. -/
def flowVertices (graph : Graph) : VertexSet :=
  let components := Components.ofGraph graph
  let sources := (graph.sourceComponents components).toList
  let sinks := (graph.sinkComponents components).toList
  .ofList (graph.vertexList.filter fun vertex =>
    match components.component? vertex with
    | none => false
    | some component =>
        sources.any (fun source => components.componentReaches source component) &&
          sinks.any fun sink => components.componentReaches component sink)

/-- The edges besides epsilon edges between vertices that lie between a source and
a sink. -/
def keepFlows (graph : Graph) : Graph :=
  let kept := graph.flowVertices
  ofEdges (graph.edges.toList.filter fun edge =>
    !edge.isEpsilon && kept.contains edge.source && kept.contains edge.target)

/-- The spans of walks from an opening to a closing wrapper bracket. -/
def wrappedSpans (graph : Graph) : SpanSet :=
  let found := solve graph (BracketLanguage.wrapper graph.allBrackets.ids)
    { recordProvenance := false }
  found.spanSet

/-- Leaves out the spans that were seen before. -/
def firstOccurrences (seen : SpanSet) : List Span → List Span
  | [] => []
  | span :: rest =>
      if seen.contains span then
        firstOccurrences seen rest
      else
        span :: firstOccurrences (seen.insert span) rest

/-- The given spans that are spans of wrapped walks, each once. -/
def filterWrapped (graph : Graph) (spans : List Span) : List Span :=
  let wrapped := graph.wrappedSpans
  firstOccurrences ∅ (spans.filter wrapped.contains)

/-- The copies of an edge in the tripled graph: every edge runs in the middle
layer, a source also enters it and a sink also leaves it. -/
def flowCopies (edge : Edge) : List ((Nat × Nat) × Label) :=
  [((1, 1), edge.label)] ++
    (if isSourceLabel edge.label then [((0, 1), edge.label)] else []) ++
    (if isSinkLabel edge.label then [((1, 2), edge.label)] else [])

/-- Three copies of every vertex: before the source, between, and after the
sink. -/
def tripled (graph : Graph) : LayeredGraph :=
  .ofCopies graph 3 flowCopies

end Graph

/-- The spans of vertices below the spans from before a source to after a sink. -/
def LayeredGraph.projectFlows (tripled : LayeredGraph) (spans : List Span) : SpanSet :=
  tripled.project spans 0 (· == 2)

end GrammarReach
