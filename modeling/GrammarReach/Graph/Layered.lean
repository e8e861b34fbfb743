import GrammarReach.Graph.Numbering

/-!
# Layered graphs

The vertices of a layered graph are pairs of a vertex and a layer.  With the
vertices numbered from zero, the pair of vertex number `i` and layer `q` is the
number `layers * i + q`.
-/

namespace GrammarReach

/-- A graph over pairs of a vertex and a layer, with the numbering that decodes
them. -/
structure LayeredGraph where
  graph : Graph
  layers : Nat
  numbering : Numbering

namespace LayeredGraph

/-- The layered graph without edges over the vertices of a graph.  There is at
least one layer. -/
def unconnected (source : Graph) (layers : Nat) : LayeredGraph where
  graph := .empty
  layers := max layers 1
  numbering := .ofGraph source

/-- The pair of a vertex and a layer. -/
def lift (layered : LayeredGraph) (vertex : Vertex) (layer : Nat) : Option Vertex :=
  (layered.numbering.number? vertex).map fun number =>
    layered.layers * number + layer % layered.layers

/-- The vertex and the layer of a pair. -/
def split (layered : LayeredGraph) (pair : Vertex) : Option (Vertex × Nat) :=
  (layered.numbering.vertex? (pair / layered.layers)).map fun vertex =>
    (vertex, pair % layered.layers)

/-- Adds an edge between two pairs if both vertices are known. -/
def connect (layered : LayeredGraph) (source target : Vertex × Nat) (label : Label) :
    LayeredGraph :=
  match layered.lift source.1 source.2, layered.lift target.1 target.2 with
  | some sourcePair, some targetPair =>
      { layered with graph := layered.graph.add ⟨sourcePair, targetPair, label⟩ }
  | _, _ => layered

/-- Adds copies of an edge, each between the two given layers and with the given
label. -/
def copyEdge (layered : LayeredGraph) (edge : Edge) (copies : List ((Nat × Nat) × Label)) :
    LayeredGraph :=
  copies.foldl
    (fun layered (layers, label) =>
      layered.connect (edge.source, layers.1) (edge.target, layers.2) label)
    layered

/-- The layered graph that holds the given copies of every edge besides epsilon
loops. -/
def ofCopies (source : Graph) (layers : Nat) (copies : Edge → List ((Nat × Nat) × Label)) :
    LayeredGraph :=
  (source.edges.toList.filter fun edge => !edge.isEpsilonLoop).foldl
    (fun layered edge => layered.copyEdge edge (copies edge)) (.unconnected source layers)

/-- The span of vertices below a span of pairs that starts in the layer `start`
and stops in an accepted layer, unless it stops where it starts. -/
def projectSpan (layered : LayeredGraph) (start : Nat) (accepts : Nat → Bool) (span : Span) :
    Option Span :=
  match layered.split span.start, layered.split span.stop with
  | some (source, sourceLayer), some (target, targetLayer) =>
      if sourceLayer = start ∧ accepts targetLayer ∧ source ≠ target then
        some ⟨source, target⟩
      else
        none
  | _, _ => none

/-- The spans of vertices below the spans that start in the layer `start` and stop
in an accepted layer. -/
def project (layered : LayeredGraph) (spans : List Span) (start : Nat)
    (accepts : Nat → Bool) : SpanSet :=
  .ofList (spans.filterMap (layered.projectSpan start accepts))

end LayeredGraph

end GrammarReach
