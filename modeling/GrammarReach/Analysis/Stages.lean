import GrammarReach.Analysis.Approximation
import GrammarReach.Analysis.Refinement
import GrammarReach.Graph.Condensation

/-!
# The staged analysis

Cheap bounds come first, then mutual refinement with the classic and with the
augmented grammars on a condensed graph, and last one question for each span that
is still open.
-/

namespace GrammarReach

/-- The answers of every stage. -/
structure StageResults where
  regularization : SpanSet := ∅
  intersection : SpanSet := ∅
  underApproximation : SpanSet := ∅
  classic : SpanSet := ∅
  augmented : SpanSet := ∅
  onDemand : SpanSet := ∅

/-- The spans of the first set that are in the second one. -/
def SpanSet.common (first second : SpanSet) : SpanSet :=
  first.filter second.contains

/-- The spans of the first set that are not in the second one, in ascending
order. -/
def SpanSet.missing (first second : SpanSet) : List Span :=
  first.toList.filter fun span => !second.contains span

/-- The matched brackets on walks between the ends of the given spans. -/
def Graph.shrinkTo (graph : Graph) (spans : SpanSet) : Graph :=
  (graph.restrictTo spans.toList).matchedBrackets.graph

namespace Session

/-- Mutual refinement on the condensed graph, with the answers carried back to all
members. -/
def refineCondensed (session : Session) (graph : Graph) (under : SpanSet) :
    SpanSet × Session :=
  let condensation := Condensation.ofKnown graph under
  let (refined, session) := session.mutualRefinement condensation.graph none
  (condensation.expand (refined.toList.filter fun span => !span.isReflexive), session)

end Session

/-- The state of the last stage: the session, what was found out about spans of
representatives, and the spans confirmed so far. -/
structure Inquiry where
  session : Session
  decided : Std.TreeMap Span Bool := ∅
  confirmed : SpanSet := ∅

namespace Inquiry

/-- Decides a span of representatives.  A representative reaches itself, and no
span is asked for twice. -/
def decide (condensation : Condensation) (state : Inquiry) (span : Span) :
    Bool × Inquiry :=
  if span.isReflexive then
    (true, state)
  else
    match state.decided[span]? with
    | some known => (known, state)
    | none =>
        let (found, session) :=
          state.session.mutualRefinement condensation.graph (some span)
        let answer := !found.isEmpty
        (answer, { state with session, decided := state.decided.insert span answer })

/-- Asks for one span, the one at the given place of the queue.  Results are
forgotten at every multiple of the interval. -/
def ask (condensation : Condensation) (interval : Nat) (state : Inquiry)
    (question : Span × Nat) : Inquiry :=
  let (span, place) := question
  let state :=
    if place % interval = 0 then { state with session := state.session.clearMemo } else state
  let (answer, state) := state.decide condensation (condensation.lift span)
  if answer then { state with confirmed := state.confirmed.insert span } else state

/-- The spans to ask for: those between representatives first. -/
def queue (condensation : Condensation) (spans : List Span) : List Span :=
  spans.filter (fun span => condensation.lift span == span) ++
    spans.filter fun span => condensation.lift span != span

end Inquiry

namespace Session

/-- Decides every span of `upper` that is not in `under`, one at a time. -/
def onDemand (session : Session) (graph : Graph) (under upper : SpanSet) :
    SpanSet × Session :=
  let condensation := Condensation.ofKnown graph under
  let questions := (Inquiry.queue condensation (SpanSet.missing upper under)).zipIdx
  let interval := max session.settings.cacheClearInterval 1
  let state := questions.foldl (Inquiry.ask condensation interval)
    { session, confirmed := under }
  (state.confirmed, state.session)

/-- The graph that the stages start from: value flows only need the edges between
sources and sinks. -/
def prepared (settings : Settings) (input : Graph) : Graph :=
  match settings.family with
  | .taint => input
  | .valueFlow => input.keepFlows

def analyze (session : Session) (input : Graph) : StageResults × Session :=
  let settings := session.settings
  let graph := prepared settings input
  let regularization := Approximation.regularization settings graph
  let intersection := Approximation.intersection settings graph
  let graph := graph.shrinkTo intersection
  let under := Approximation.underApproximation settings graph
  let (refined, session) := (session.clearMemo.setMode .classic).refineCondensed graph under
  let classic := SpanSet.common refined intersection
  let graph := graph.shrinkTo classic
  let (refined, session) := (session.clearMemo.setMode .augmented).refineCondensed graph under
  let augmented := SpanSet.common refined classic
  let graph := graph.shrinkTo augmented
  let (onDemand, session) := session.onDemand graph under augmented
  ({ regularization, intersection, classic, augmented, onDemand
     underApproximation := under }, session)

end Session

end GrammarReach
