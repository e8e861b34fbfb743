import GrammarReach.Analysis.ValueFlow
import GrammarReach.Bracket.Automaton
import GrammarReach.Graph.Pieces
import GrammarReach.Graph.Restriction
import GrammarReach.Settings.Basic

/-!
# Cheap bounds

Before refinement the answers are bounded from above by two cheap approximations
and from below by a third one.  All of them work piece by piece.
-/

namespace GrammarReach

namespace Graph

def activePieces (graph : Graph) : List Graph :=
  graph.pieces.filter fun piece => !piece.isTrivial

/-- The answers of a grammar, in the order of discovery. -/
def spansOf (graph : Graph) (grammar : Grammar) : List Span :=
  (solve graph grammar { recordProvenance := false }).spans

end Graph

namespace Approximation

/-- The answers on one piece when an automaton takes the place of the beta
grammar. -/
def regularizePiece (settings : Settings) (piece : Graph) : SpanSet :=
  let choice := settings.grammars .classic
  let component := piece.allBrackets
  let family := choice.alphaFamily.other
  let automaton : BracketAutomaton :=
    ⟨settings.family, family, component.ids.ofFamily family⟩
  let product := automaton.product component.graph
  BracketAutomaton.project settings.family product
    (product.graph.spansOf (choice.alpha component.ids))

def unite (sets : List SpanSet) : SpanSet :=
  sets.foldl (fun all set => all.insertMany set.toList) ∅

/-- The answers of the alpha grammar on the product with an automaton that checks
the other family up to a bound. -/
def regularization (settings : Settings) (graph : Graph) : SpanSet :=
  unite (graph.activePieces.map (regularizePiece settings))

/-- The answers of both classic grammars on one piece. -/
structure PieceAnswers where
  alpha : List Span
  beta : List Span
  wrapped : List Span

/-- Runs both classic grammars on one piece, the second one between the answers of
the first one. -/
def intersectPiece (settings : Settings) (piece : Graph) : PieceAnswers :=
  let choice := settings.grammars .classic
  let component := piece.allBrackets
  let alpha := component.graph.spansOf (choice.alpha component.ids)
  let restricted := (component.graph.restrictTo alpha).allBrackets
  let beta := restricted.graph.spansOf (choice.beta restricted.ids)
  { alpha, beta
    wrapped := match settings.family with
      | .taint => []
      | .valueFlow => piece.filterWrapped beta }

/-- The spans between different vertices that both classic grammars answer; value
flows have to be wrapped as well. -/
def intersection (settings : Settings) (graph : Graph) : SpanSet :=
  let answers := graph.activePieces.map (intersectPiece settings)
  let betaSet : SpanSet := .ofList (answers.flatMap (·.beta))
  let wrappedSet : SpanSet := .ofList (answers.flatMap (·.wrapped))
  .ofList ((answers.flatMap (·.alpha)).filter fun span =>
    !span.isReflexive && betaSet.contains span &&
      match settings.family with
      | .taint => true
      | .valueFlow => wrappedSet.contains span)

/-- The spans between different vertices whose walks match both families in one
stack. -/
def interleavedSpans (graph : Graph) : List Span :=
  graph.activePieces.flatMap fun piece =>
    let component := piece.matchedBrackets
    (component.graph.spansOf (BracketLanguage.interleaved component.ids)).filter
      fun span => !span.isReflexive

/-- The spans that certainly are answers, because their walks match both families
in one stack. -/
def underApproximation (settings : Settings) (graph : Graph) : SpanSet :=
  let working := graph.allBrackets.graph
  match settings.family with
  | .taint => .ofList (interleavedSpans working)
  | .valueFlow =>
      let tripled := working.tripled
      tripled.projectFlows (interleavedSpans tripled.graph)

end Approximation

end GrammarReach
