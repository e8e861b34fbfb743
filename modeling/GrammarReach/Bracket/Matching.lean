import GrammarReach.Bracket.Label
import GrammarReach.Graph.Basic

/-!
# Brackets of a graph

A graph can be reduced to the edges that say something about brackets.  The strict
reduction keeps a bracket only if its partner occurs as well; the generous one
keeps every edge that is not an epsilon edge.
-/

namespace GrammarReach

/-- A graph together with the ids of the brackets found in it. -/
structure BracketComponent where
  ids : BracketIds := {}
  graph : Graph := .empty

/-- What was found on the way along the edges: the labels and the brackets with a
partner, in the order in which they were found. -/
structure PartnerScan where
  seen : Std.TreeSet Label := ∅
  found : List (BracketFamily × Nat) := []

namespace PartnerScan

/-- Appends a bracket to those found unless it is among them. -/
def record (found : List (BracketFamily × Nat)) (bracket : BracketFamily × Nat) :
    List (BracketFamily × Nat) :=
  if found.contains bracket then found else found ++ [bracket]

/-- Looks at one label.  A bracket is found when the label of its partner was seen
before. -/
def look (scan : PartnerScan) (label : Label) : PartnerScan :=
  let reading := BracketLabel.read label
  { seen := scan.seen.insert label
    found := match reading.partner?, reading.bracket? with
      | some partner, some bracket =>
          if scan.seen.contains partner.text then record scan.found bracket else scan.found
      | _, _ => scan.found }

end PartnerScan

namespace Graph

/-- The brackets that occur with their partner, in the order in which the second
of the two was met. -/
def partneredBrackets (graph : Graph) : List (BracketFamily × Nat) :=
  (graph.edges.foldl (fun scan edge => scan.look edge.label) ({} : PartnerScan)).found

/-- The label is `normal` or one of the given brackets. -/
def keepsLabel (brackets : List (BracketFamily × Nat)) (label : Label) : Bool :=
  match BracketLabel.read label with
  | .normal => true
  | .opening family id => brackets.contains (family, id)
  | .closing family id => brackets.contains (family, id)
  | .epsilon => false
  | .other _ => false

/-- The normal edges and the brackets whose partner occurs as well. -/
def matchedBrackets (graph : Graph) : BracketComponent :=
  let brackets := graph.partneredBrackets
  { ids := .ofBrackets brackets
    graph := .ofEdges (graph.edges.toList.filter fun edge => keepsLabel brackets edge.label) }

/-- The brackets that occur, in the order in which they were first met. -/
def occurringBrackets (graph : Graph) : List (BracketFamily × Nat) :=
  (graph.edges.toList.filterMap fun edge => (BracketLabel.read edge.label).bracket?).foldl
    PartnerScan.record []

/-- Every edge besides epsilon edges, with the ids of all brackets that occur. -/
def allBrackets (graph : Graph) : BracketComponent where
  ids := .ofBrackets graph.occurringBrackets
  graph := .ofEdges (graph.edges.toList.filter fun edge => !edge.isEpsilon)

end Graph

end GrammarReach
