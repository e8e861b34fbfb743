import GrammarReach.Analysis.Family
import GrammarReach.Bracket.Label
import GrammarReach.Graph.Layered

/-!
# Bracket automata

A finite automaton can check the brackets of one family up to a bound.  In the
product of a graph with the automaton every vertex has a copy per state; brackets
of the automaton's family become normal edges between copies, and all other edges
keep their label.
-/

namespace GrammarReach

/-- The automaton of an analysis over the brackets of a family.  For taint, state
`0` is balanced, state `i + 1` has the `i`-th id open, and the last state has lost
count.  For value flow, state `0` lies before the source bracket, `1` and `2`
outside after a closing bracket, and `3` to `5` inside. -/
structure BracketAutomaton where
  analysis : AnalysisFamily
  family : BracketFamily
  ids : List Nat
deriving DecidableEq, Repr

namespace BracketAutomaton

def states (automaton : BracketAutomaton) : Nat :=
  match automaton.analysis with
  | .valueFlow => 6
  | .taint => automaton.ids.length + 2

/-- The state of the taint automaton that lost count. -/
def overflow (automaton : BracketAutomaton) : Nat :=
  automaton.states - 1

/-- The state of the taint automaton with an id open: that of the last place of
the id, or the balanced state for an unknown id. -/
def pending (automaton : BracketAutomaton) (id : Nat) : Nat :=
  automaton.ids.zipIdx.foldl
    (fun state (known, place) => if known = id then place + 1 else state) 0

/-- The moves of an opening bracket of the family. -/
def openMoves (automaton : BracketAutomaton) (id : Nat) : List (Nat × Nat) :=
  match automaton.analysis with
  | .valueFlow => [(0, 3), (1, 3), (2, 3), (3, 4), (4, 4), (5, 4)]
  | .taint =>
      (List.range (automaton.states - 1)).map (fun state => (state + 1, automaton.overflow)) ++
        [(0, automaton.pending id)]

/-- The moves of a closing bracket of the family. -/
def closeMoves (automaton : BracketAutomaton) (id : Nat) : List (Nat × Nat) :=
  match automaton.analysis with
  | .valueFlow => [(3, 2), (4, 5), (5, 5)]
  | .taint => [(automaton.pending id, 0), (automaton.overflow, automaton.overflow)]

def otherMoves (automaton : BracketAutomaton) : List (Nat × Nat) :=
  match automaton.analysis with
  | .valueFlow => [(1, 1), (2, 1), (3, 3), (4, 4), (5, 4)]
  | .taint => (List.range automaton.states).map fun state => (state, state)

/-- The moves of a label, with the label that the product shows. -/
def moves (automaton : BracketAutomaton) (label : Label) : List ((Nat × Nat) × Label) :=
  let others := automaton.otherMoves.map fun move => (move, label)
  match BracketLabel.read label with
  | .opening family id =>
      if family = automaton.family then
        (automaton.openMoves id).map fun move => (move, normalLabel)
      else others
  | .closing family id =>
      if family = automaton.family then
        (automaton.closeMoves id).map fun move => (move, normalLabel)
      else others
  | .epsilon => others
  | .normal => others
  | .other _ => others

/-- The state is accepting in an automaton with the given number of states. -/
def accepts (analysis : AnalysisFamily) (states state : Nat) : Bool :=
  match analysis with
  | .valueFlow => state == 2 || state == 5
  | .taint => state == 0 || state == states - 1

/-- The product of a graph with the automaton. -/
def product (automaton : BracketAutomaton) (graph : Graph) : LayeredGraph :=
  .ofCopies graph automaton.states fun edge => automaton.moves edge.label

/-- The spans of vertices below the spans of a product from state `0` to an
accepting state. -/
def project (analysis : AnalysisFamily) (product : LayeredGraph) (spans : List Span) :
    SpanSet :=
  product.project spans 0 (accepts analysis product.layers)

end BracketAutomaton

end GrammarReach
