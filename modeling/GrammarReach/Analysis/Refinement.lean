import GrammarReach.Analysis.Session
import GrammarReach.Analysis.ValueFlow
import GrammarReach.Graph.Pieces
import GrammarReach.Graph.Restriction

/-!
# Mutual refinement

The alpha and the beta grammar each know one bracket family.  They take turns on
the pieces of a graph, and each time the graph shrinks to the edges that support
the answers of the grammar before, until the number of edges no longer falls.
With a target only that one span is asked for.
-/

namespace GrammarReach

/-- What one round on a piece leads to. -/
inductive Round where
  /-- The edges no longer fall: these are the answers. -/
  | converged (spans : List Span)
  /-- Only these edges are left to be refined. -/
  | shrunk (next : Graph)
  | unreachable

namespace Round

/-- The spans to go on with: all answers, or the target if it is one of them. -/
def wanted (target : Option Span) (answers : List Span) : Option (List Span) :=
  match target with
  | none => some answers
  | some span => if answers.contains span then some [span] else none

/-- The graph of the edges that support some answers. -/
def supportGraph (result : SideResult) (spans : List Span) : Graph :=
  .ofDistinctEdges (result.provenance.supportingEdges spans).toList

/-- The spans between different vertices that both sides answer and that are the
target, if there is one. -/
def commonSpans (target : Option Span) (alphaSpans betaSpans : List Span) : List Span :=
  let betaSet : SpanSet := .ofList betaSpans
  alphaSpans.filter fun span =>
    !span.isReflexive && betaSet.contains span &&
      match target with
      | none => true
      | some wanted => span == wanted

/-- Ends a round on a graph of `oldEdges` edges with the edges left over. -/
def close (target : Option Span) (oldEdges : Nat) (alphaSpans betaSpans : List Span)
    (left : Graph) : Round :=
  let next := left.matchedBrackets.graph
  if next.edgeCount = 0 ∨ oldEdges ≤ next.edgeCount then
    .converged (commonSpans target alphaSpans betaSpans)
  else
    .shrunk next

/-- Ends a round.  Value flows keep wrapped spans and the edges between sources
and sinks only. -/
def conclude (family : AnalysisFamily) (target : Option Span) (oldEdges : Nat)
    (alphaSpans betaSpans : List Span) (left : Graph) : Round :=
  match family with
  | .taint => close target oldEdges alphaSpans betaSpans left
  | .valueFlow =>
      let wrapped := left.filterWrapped betaSpans
      if target.isSome && wrapped.isEmpty then
        .unreachable
      else
        close target oldEdges alphaSpans wrapped left.keepFlows

end Round

namespace Session

/-- Runs both grammars on a piece, the second one on what supports the answers of
the first one. -/
def refinePiece (session : Session) (target : Option Span) (piece : Graph) :
    Round × Session :=
  let alphaInput := piece.matchedBrackets
  let (alpha, session) := session.solve .alpha alphaInput
  match Round.wanted target alpha.spans with
  | none => (.unreachable, session)
  | some alphaSpans =>
      let betaInput := (Round.supportGraph alpha alphaSpans).matchedBrackets
      let (beta, session) := session.solve .beta betaInput
      match Round.wanted target beta.spans with
      | none => (.unreachable, session)
      | some betaSpans =>
          (Round.conclude session.settings.family target alphaInput.graph.edgeCount
            alphaSpans betaSpans (Round.supportGraph beta betaSpans), session)

end Session

/-- The state of a mutual refinement: the session, the answers, the graphs still
to refine, and whether the target was found to be no answer. -/
structure Refinement where
  session : Session
  found : SpanSet := ∅
  pending : List Graph := []
  refuted : Bool := false

namespace Refinement

/-- The part of a piece that can decide the target. -/
def relevantPart (target : Option Span) (piece : Graph) : Option Graph :=
  match target with
  | none => some piece
  | some span =>
      if piece.containsVertex span.start && piece.containsVertex span.stop then
        some (piece.restrictTo [span])
      else
        none

/-- Runs one round on a part of a graph.  A part without labelled edges has no
answers. -/
def refinePart (target : Option Span) (state : Refinement) (part : Graph) : Refinement :=
  if state.refuted then
    state
  else if part.isTrivial then
    { state with refuted := target.isSome }
  else
    let (round, session) := state.session.refinePiece target part
    match round with
    | .converged spans => { state with session, found := state.found.insertMany spans }
    | .shrunk next => { state with session, pending := next :: state.pending }
    | .unreachable => { state with session, refuted := true }

/-- Runs one round on every part of a graph that matters. -/
def refineGraph (target : Option Span) (state : Refinement) (graph : Graph) : Refinement :=
  let parts := graph.pieces.filterMap (relevantPart target)
  if target.isSome && parts.isEmpty then
    { state with refuted := true }
  else
    parts.foldl (refinePart target) state

/-- Refines the pending graphs, the latest first, in at most `bound` steps. -/
def run (target : Option Span) : Nat → Refinement → Refinement
  | 0, state => state
  | bound + 1, state =>
      match state.refuted, state.pending with
      | false, graph :: rest =>
          run target bound (refineGraph target { state with pending := rest } graph)
      | _, _ => state

def answers (state : Refinement) : SpanSet :=
  if state.refuted then ∅ else state.found

end Refinement

namespace Graph

/-- The ends of the target, if there is one, are vertices of the graph. -/
def containsTarget (graph : Graph) (target : Option Span) : Bool :=
  match target with
  | none => true
  | some span => graph.containsVertex span.start && graph.containsVertex span.stop

end Graph

namespace Session

/-- The spans that survive the alternation of both grammars, or the target if it
survives.  Every graph put back is smaller than the piece it comes from, so the
edges bound the number of steps. -/
def mutualRefinement (session : Session) (graph : Graph) (target : Option Span) :
    SpanSet × Session :=
  if graph.containsTarget target then
    let state := Refinement.run target (graph.edgeCount + 2) { session, pending := [graph] }
    (state.answers, state.session)
  else
    (∅, session)

end Session

end GrammarReach
