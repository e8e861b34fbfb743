import GrammarReach.Graph.Basic
import GrammarReach.Text.Digest
import GrammarReach.Text.Utf8

/-!
# The content of a graph

Two graphs have the same content when they have the same edges besides epsilon
edges, in whatever order.  The content is written as one text, and the hash of
that text stands for it where results are remembered.
-/

namespace GrammarReach

/-- The part of the content text that stands for one edge. -/
def Edge.contentKey (edge : Edge) : String :=
  Text.decimal edge.source ++ "->" ++ Text.decimal edge.target ++ "[" ++ edge.label ++ "]"

namespace Graph

/-- The edges besides epsilon edges, in the order in which they were added. -/
def labelledEdges (graph : Graph) : List Edge :=
  graph.edges.toList.filter fun edge => !edge.isEpsilon

/-- The sorted keys of the labelled edges, each with a space behind it. -/
def contentText (graph : Graph) : String :=
  String.join ((Text.sorted (graph.labelledEdges.map Edge.contentKey)).map (· ++ " "))

def contentHash (graph : Graph) : UInt64 :=
  Text.hashBytes (Text.bytesOf graph.contentText)

end Graph

end GrammarReach
