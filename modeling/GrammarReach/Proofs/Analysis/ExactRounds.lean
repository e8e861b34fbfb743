import GrammarReach.Proofs.Analysis.ExactSides
import GrammarReach.Proofs.Analysis.RefinementRuns
import GrammarReach.Proofs.Graph.LinkedEdges

/-!
# Exact rounds

In a session whose results are exact a round only depends on the piece that it refines.
So the course of a refinement can be told without its session: by rounds of fresh
sessions, each on a part of what an earlier one left over.
-/

namespace GrammarReach

/-! ## Rounds of fresh sessions -/

/-- The graph that supports the wanted answers of a side, unless it does not answer the
target. -/
def RefiningSide.supporting (side : RefiningSide) (choice : GrammarChoice)
    (target : Option Span) (component : BracketComponent) : Option Graph :=
  let result := side.solve choice component
  (Round.wanted target result.spans).map (Round.supportGraph result)

/-- Value flows keep the edges between sources and sinks only. -/
def AnalysisFamily.keeping (family : AnalysisFamily) (support : Graph) : Graph :=
  match family with
  | .taint => support
  | .valueFlow => support.keepFlows

theorem AnalysisFamily.keeping_subset (family : AnalysisFamily) (support : Graph) :
    (family.keeping support).edgeSet ⊆ support.edgeSet := by
  cases family with
  | taint => exact subset_rfl
  | valueFlow => exact fun _ => Graph.labelledEdges_of_keepFlows

theorem Graph.matchedBrackets_subset (graph : Graph) :
    graph.matchedBrackets.graph.edgeSet ⊆ graph.edgeSet :=
  fun _ member => (Graph.mem_labelledEdges_matchedBrackets.mp member).1

namespace Settings

/-- What a round leaves of a part when both sides have supported the wanted answers. -/
def leftOver (settings : Settings) (target : Option Span) (part : Graph) : Option Graph := do
  let choice := settings.grammars settings.mode
  let middle ← RefiningSide.alpha.supporting choice target part.matchedBrackets
  let support ← RefiningSide.beta.supporting choice target middle.matchedBrackets
  return (settings.family.keeping support).matchedBrackets.graph

/-- The graphs that a refinement comes to: its input, and what a round leaves over of a part
that matters. -/
inductive ComesTo (settings : Settings) (target : Option Span) (input : Graph) :
    Graph → Prop where
  | input : ComesTo settings target input input
  | next {graph part next : Graph} : ComesTo settings target input graph →
      part ∈ Refinement.relevantParts target graph →
      ((Session.ofSettings settings).refinePiece target part).1 = .shrunk next →
      ComesTo settings target input next

/-- A round on a part that matters answers the span and leaves no edge over. -/
def Exhausted (settings : Settings) (target : Option Span) (input : Graph) (span : Span) :
    Prop :=
  ∃ graph part spans left, settings.ComesTo target input graph ∧
    part ∈ Refinement.relevantParts target graph ∧
    ((Session.ofSettings settings).refinePiece target part).1 = .converged spans ∧
    span ∈ spans ∧ settings.leftOver target part = some left ∧ left.edgeCount = 0

end Settings

/-! ## Rounds that agree -/

namespace Round

/-- The rounds end alike, with the same answers in any order. -/
def Agrees : Round → Round → Prop
  | .converged spans, .converged others => ∀ span, span ∈ spans ↔ span ∈ others
  | .shrunk next, .shrunk other => next = other
  | .unreachable, .unreachable => True
  | _, _ => False

namespace Agrees

variable {other : Round}

theorem exists_converged {spans : List Span} (agrees : (converged spans).Agrees other) :
    ∃ others, other = .converged others ∧ ∀ span, span ∈ spans ↔ span ∈ others := by
  cases other with
  | converged others => exact ⟨others, rfl, agrees⟩
  | shrunk next => exact agrees.elim
  | unreachable => exact agrees.elim

theorem eq_shrunk {next : Graph} (agrees : (shrunk next).Agrees other) :
    other = .shrunk next := by
  cases other with
  | converged others => exact agrees.elim
  | shrunk other => exact congrArg shrunk agrees.symm
  | unreachable => exact agrees.elim

theorem eq_unreachable (agrees : unreachable.Agrees other) : other = .unreachable := by
  cases other with
  | converged others => exact agrees.elim
  | shrunk next => exact agrees.elim
  | unreachable => rfl

end Agrees

section Agreement

variable {target : Option Span} {oldEdges : Nat} {left : Graph}
  {alphaSpans alphaOthers betaSpans betaOthers : List Span}

private theorem agrees_close
    (alpha : ∀ span : Span, span.isReflexive = false → (span ∈ alphaSpans ↔ span ∈ alphaOthers))
    (beta : ∀ span : Span, span.isReflexive = false → (span ∈ betaSpans ↔ span ∈ betaOthers)) :
    (close target oldEdges alphaSpans betaSpans left).Agrees
      (close target oldEdges alphaOthers betaOthers left) := by
  unfold close
  simp only
  split
  · intro span
    rw [mem_commonSpans, mem_commonSpans]
    constructor
    · rintro ⟨inAlpha, inBeta, irreflexive, fits⟩
      exact ⟨(alpha span irreflexive).mp inAlpha, (beta span irreflexive).mp inBeta,
        irreflexive, fits⟩
    · rintro ⟨inAlpha, inBeta, irreflexive, fits⟩
      exact ⟨(alpha span irreflexive).mpr inAlpha, (beta span irreflexive).mpr inBeta,
        irreflexive, fits⟩
  · rfl

private theorem agrees_conclude (family : AnalysisFamily)
    (alpha : ∀ span : Span, span.isReflexive = false → (span ∈ alphaSpans ↔ span ∈ alphaOthers))
    (beta : ∀ span : Span, span.isReflexive = false → (span ∈ betaSpans ↔ span ∈ betaOthers))
    (focused : target.isSome = true → betaSpans = betaOthers) :
    (conclude family target oldEdges alphaSpans betaSpans left).Agrees
      (conclude family target oldEdges alphaOthers betaOthers left) := by
  unfold conclude
  cases family with
  | taint => exact agrees_close alpha beta
  | valueFlow =>
      have wrapped : ∀ span : Span, span.isReflexive = false →
          (span ∈ left.filterWrapped betaSpans ↔ span ∈ left.filterWrapped betaOthers) := by
        intro span irreflexive
        rw [Graph.mem_filterWrapped, Graph.mem_filterWrapped, beta span irreflexive]
      cases isSome : target.isSome with
      | false => simpa using agrees_close alpha wrapped
      | true =>
          rw [focused isSome]
          simp only [Bool.true_and]
          split
          · trivial
          · exact agrees_close alpha fun _ _ => Iff.rfl

end Agreement

end Round

/-! ## Exact results of a round -/

open Round in
/-- What both sides answer exactly in a round that is concluded. -/
structure ExactRound (choice : GrammarChoice) (target : Option Span) (piece : Graph) where
  alpha : SideResult
  beta : SideResult
  alphaSpans : List Span
  betaSpans : List Span
  alphaExact : alpha.Exact choice choice.alphaFamily piece.matchedBrackets
  alphaChosen : wanted target alpha.spans = some alphaSpans
  betaExact : beta.Exact choice choice.alphaFamily.other
    (supportGraph alpha alphaSpans).matchedBrackets
  betaChosen : wanted target beta.spans = some betaSpans

section Wanted

open Round

variable {choice : GrammarChoice} {family : BracketFamily} {component : BracketComponent}
  {target : Option Span} {result other : SideResult} {spans : List Span}

/-- The wanted answers are the spans of accepted walks that fit the target. -/
theorem SideResult.Exact.mem_wanted (exact : result.Exact choice family component)
    (chosen : wanted target result.spans = some spans) {span : Span}
    (irreflexive : span.isReflexive = false) :
    span ∈ spans ↔ Fits target span ∧ ∃ path, AcceptedWalk choice family component span path := by
  rw [← exact.mem_spans span irreflexive]
  constructor
  · intro member
    refine ⟨?_, mem_of_wanted chosen member⟩
    intro asked same
    subst same
    simp only [wanted, Option.ite_none_right_eq_some, Option.some.injEq] at chosen
    rw [← chosen.2] at member
    simpa using member
  · rintro ⟨fits, member⟩
    obtain ⟨others, same, inOthers⟩ := exists_wanted fits member
    rw [chosen] at same
    cases same
    exact inOthers

/-- The edges that support the wanted answers are those of accepted walks that fit the
target. -/
theorem SideResult.Exact.mem_supportGraph (exact : result.Exact choice family component)
    (chosen : wanted target result.spans = some spans) {edge : Edge} :
    edge ∈ (supportGraph result spans).labelledEdges ↔
      ∃ span path, span.isReflexive = false ∧ Fits target span ∧
        AcceptedWalk choice family component span path ∧ edge ∈ path := by
  rw [Round.mem_supportGraph, exact.mem_supportingEdges]
  constructor
  · rintro ⟨span, member, irreflexive, path, walk, onPath⟩
    exact ⟨span, path, irreflexive, ((exact.mem_wanted chosen irreflexive).mp member).1, walk,
      onPath⟩
  · rintro ⟨span, path, irreflexive, fits, walk, onPath⟩
    exact ⟨span, (exact.mem_wanted chosen irreflexive).mpr ⟨fits, path, walk⟩, irreflexive,
      path, walk, onPath⟩

theorem SideResult.Exact.wanted_agrees (exact : result.Exact choice family component)
    (otherExact : other.Exact choice family component)
    (irreflexive : ∀ asked, target = some asked → asked.isReflexive = false)
    (chosen : wanted target result.spans = some spans) :
    ∃ others, wanted target other.spans = some others ∧
      supportGraph other others = supportGraph result spans ∧
      (∀ span : Span, span.isReflexive = false → (span ∈ spans ↔ span ∈ others)) ∧
      (target.isSome = true → spans = others) := by
  have known : ∃ others, wanted target other.spans = some others ∧
      (target.isSome = true → spans = others) := by
    cases target with
    | none => exact ⟨other.spans, rfl, by simp⟩
    | some asked =>
        simp only [wanted, Option.ite_none_right_eq_some, Option.some.injEq] at chosen
        have inResult : asked ∈ result.spans := by simpa using chosen.1
        have inOther : asked ∈ other.spans :=
          (otherExact.mem_spans asked (irreflexive asked rfl)).mpr
            ((exact.mem_spans asked (irreflexive asked rfl)).mp inResult)
        exact ⟨[asked], by simp [wanted, inOther], fun _ => chosen.2.symm⟩
  obtain ⟨others, otherChosen, focused⟩ := known
  refine ⟨others, otherChosen, ?_, fun span different => ?_, focused⟩
  · unfold supportGraph
    congr 1
    refine Std.TreeSet.Equiv.toList_eq (.of_forall_mem_iff fun edge => ?_)
    rw [← Round.mem_supportGraph, ← Round.mem_supportGraph, otherExact.mem_supportGraph otherChosen,
      exact.mem_supportGraph chosen]
  · rw [exact.mem_wanted chosen different, otherExact.mem_wanted otherChosen different]

end Wanted

namespace ExactRound

open Round

variable {choice : GrammarChoice} {target : Option Span} {piece : Graph}

/-- What supports the wanted answers of the alpha side. -/
def middle (round : ExactRound choice target piece) : Graph :=
  supportGraph round.alpha round.alphaSpans

/-- What supports the wanted answers of the beta side. -/
def support (round : ExactRound choice target piece) : Graph :=
  supportGraph round.beta round.betaSpans

/-- How the round ends. -/
def finish (round : ExactRound choice target piece) (family : AnalysisFamily) : Round :=
  conclude family target piece.matchedBrackets.graph.edgeCount round.alphaSpans
    round.betaSpans round.support

/-- What the round leaves over. -/
def left (round : ExactRound choice target piece) (family : AnalysisFamily) : Graph :=
  (family.keeping round.support).matchedBrackets.graph

/-- The round answers the spans that both sides answer and that are wrapped in a value
flow; then it leaves no edge or no fewer than there were. -/
theorem of_converged {round : ExactRound choice target piece} {family : AnalysisFamily}
    {spans : List Span} (ended : round.finish family = .converged spans) :
    ((round.left family).edgeCount = 0 ∨
        piece.matchedBrackets.graph.edgeCount ≤ (round.left family).edgeCount) ∧
      ∀ span, span ∈ spans ↔ span ∈ round.alphaSpans ∧ span ∈ round.betaSpans ∧
        span.isReflexive = false ∧ Fits target span ∧
        (family = .valueFlow → span ∈ round.support.wrappedSpans) := by
  unfold finish conclude at ended
  have answers : ∀ {betaSpans : List Span} {kept : Graph},
      close target piece.matchedBrackets.graph.edgeCount round.alphaSpans betaSpans kept =
        .converged spans →
      (kept.matchedBrackets.graph.edgeCount = 0 ∨
        piece.matchedBrackets.graph.edgeCount ≤ kept.matchedBrackets.graph.edgeCount) ∧
      ∀ span, span ∈ spans ↔ span ∈ round.alphaSpans ∧ span ∈ betaSpans ∧
        span.isReflexive = false ∧ Fits target span := by
    intro betaSpans kept closed
    unfold close at closed
    simp only at closed
    split at closed
    · rename_i settled
      cases closed
      exact ⟨settled, fun span => mem_commonSpans⟩
    · cases closed
  cases family with
  | taint =>
      obtain ⟨settled, common⟩ := answers ended
      exact ⟨settled, fun span => by simp [common span]⟩
  | valueFlow =>
      simp only at ended
      split at ended
      · cases ended
      · obtain ⟨settled, common⟩ := answers ended
        refine ⟨settled, fun span => ?_⟩
        rw [common span, Graph.mem_filterWrapped]
        constructor
        · rintro ⟨inAlpha, ⟨inBeta, wrapped⟩, irreflexive, fits⟩
          exact ⟨inAlpha, inBeta, irreflexive, fits, fun _ => wrapped⟩
        · rintro ⟨inAlpha, inBeta, irreflexive, fits, wrapped⟩
          exact ⟨inAlpha, ⟨inBeta, wrapped rfl⟩, irreflexive, fits⟩

/-- A round that is not settled leaves over what it supports. -/
theorem of_shrunk {round : ExactRound choice target piece} {family : AnalysisFamily}
    {next : Graph} (ended : round.finish family = .shrunk next) : next = round.left family := by
  unfold finish conclude at ended
  have closes : ∀ {betaSpans : List Span} {kept : Graph},
      close target piece.matchedBrackets.graph.edgeCount round.alphaSpans betaSpans kept =
        .shrunk next → next = kept.matchedBrackets.graph := by
    intro betaSpans kept closed
    unfold close at closed
    simp only at closed
    split at closed
    · cases closed
    · cases closed
      rfl
  cases family with
  | taint => exact closes ended
  | valueFlow =>
      simp only at ended
      split at ended
      · cases ended
      · exact closes ended

/-! ### Edges -/

theorem mem_middle (round : ExactRound choice target piece) {edge : Edge} :
    edge ∈ round.middle.edgeSet ↔ ∃ span path, span.isReflexive = false ∧ Fits target span ∧
      AcceptedWalk choice choice.alphaFamily piece.matchedBrackets span path ∧ edge ∈ path :=
  round.alphaExact.mem_supportGraph round.alphaChosen

theorem mem_support (round : ExactRound choice target piece) {edge : Edge} :
    edge ∈ round.support.edgeSet ↔ ∃ span path, span.isReflexive = false ∧ Fits target span ∧
      AcceptedWalk choice choice.alphaFamily.other round.middle.matchedBrackets span path ∧
        edge ∈ path :=
  round.betaExact.mem_supportGraph round.betaChosen

theorem built_support (round : ExactRound choice target piece) : round.support.Built :=
  built_supportGraph

theorem loopsOnly_support (round : ExactRound choice target piece) : round.support.LoopsOnly :=
  loopsOnly_supportGraph

theorem middle_subset (round : ExactRound choice target piece) :
    round.middle.edgeSet ⊆ piece.matchedBrackets.graph.edgeSet := by
  intro edge member
  obtain ⟨span, path, _, _, walk, onPath⟩ := round.mem_middle.mp member
  exact walk.inside edge onPath

theorem support_subset (round : ExactRound choice target piece) :
    round.support.edgeSet ⊆ round.middle.matchedBrackets.graph.edgeSet := by
  intro edge member
  obtain ⟨span, path, _, _, walk, onPath⟩ := round.mem_support.mp member
  exact walk.inside edge onPath

theorem left_subset_support (round : ExactRound choice target piece)
    (family : AnalysisFamily) : (round.left family).edgeSet ⊆ round.support.edgeSet :=
  (Graph.matchedBrackets_subset _).trans (family.keeping_subset _)

theorem left_subset (round : ExactRound choice target piece) (family : AnalysisFamily) :
    (round.left family).edgeSet ⊆ piece.matchedBrackets.graph.edgeSet :=
  (round.left_subset_support family).trans (round.support_subset.trans
    ((Graph.matchedBrackets_subset _).trans round.middle_subset))

/-! ### The same round twice -/

/-- Two exact rounds on a piece support the same edges and end alike. -/
theorem agrees (round other : ExactRound choice target piece)
    (irreflexive : ∀ asked, target = some asked → asked.isReflexive = false)
    (family : AnalysisFamily) :
    other.left family = round.left family ∧
      (round.finish family).Agrees (other.finish family) := by
  obtain ⟨alphaSpans, alphaChosen, sameMiddle, alphaSame, _⟩ :=
    round.alphaExact.wanted_agrees other.alphaExact irreflexive round.alphaChosen
  rw [other.alphaChosen] at alphaChosen
  cases alphaChosen
  have betaExact := other.betaExact
  rw [sameMiddle] at betaExact
  obtain ⟨betaSpans, betaChosen, sameSupport, betaSame, focused⟩ :=
    round.betaExact.wanted_agrees betaExact irreflexive round.betaChosen
  rw [other.betaChosen] at betaChosen
  cases betaChosen
  have support : other.support = round.support := sameSupport
  constructor
  · rw [left, left, support]
  · unfold finish
    rw [support]
    exact agrees_conclude family alphaSame betaSame focused

/-- The same round with results that no session remembers. -/
theorem exists_fresh (round : ExactRound choice target piece)
    (irreflexive : ∀ asked, target = some asked → asked.isReflexive = false)
    (family : AnalysisFamily) :
    ∃ fresh : ExactRound choice target piece,
      fresh.alpha = RefiningSide.alpha.solve choice piece.matchedBrackets ∧
      fresh.beta = RefiningSide.beta.solve choice fresh.middle.matchedBrackets ∧
      fresh.left family = round.left family ∧
      (round.finish family).Agrees (fresh.finish family) := by
  have alphaExact := RefiningSide.alpha.exact_solve choice piece.exact_matchedBrackets
  obtain ⟨alphaSpans, alphaChosen, sameMiddle, _⟩ :=
    round.alphaExact.wanted_agrees alphaExact irreflexive round.alphaChosen
  have betaExact := RefiningSide.beta.exact_solve choice
    (supportGraph (RefiningSide.alpha.solve choice piece.matchedBrackets)
      alphaSpans).exact_matchedBrackets
  have betaKnown := betaExact
  rw [sameMiddle] at betaKnown
  obtain ⟨betaSpans, betaChosen, _⟩ :=
    round.betaExact.wanted_agrees betaKnown irreflexive round.betaChosen
  rw [← sameMiddle] at betaChosen
  let fresh : ExactRound choice target piece :=
    { alpha := _, beta := _, alphaSpans, betaSpans, alphaExact, alphaChosen, betaExact,
      betaChosen }
  exact ⟨fresh, rfl, rfl, round.agrees fresh irreflexive family⟩

end ExactRound

/-! ## How a round with exact results ends -/

section Outcomes

open Round

/-- How a round on a piece can end when the results of both sides are exact: one of them
misses the target, or the round is concluded. -/
inductive ExactOutcome (choice : GrammarChoice) (family : AnalysisFamily)
    (target : Option Span) (piece : Graph) : Round → Prop where
  | alphaMisses {alpha : SideResult} :
      alpha.Exact choice choice.alphaFamily piece.matchedBrackets →
      wanted target alpha.spans = none → ExactOutcome choice family target piece .unreachable
  | betaMisses {alpha beta : SideResult} {alphaSpans : List Span} :
      alpha.Exact choice choice.alphaFamily piece.matchedBrackets →
      wanted target alpha.spans = some alphaSpans →
      beta.Exact choice choice.alphaFamily.other
        (supportGraph alpha alphaSpans).matchedBrackets →
      wanted target beta.spans = none → ExactOutcome choice family target piece .unreachable
  | concluded (round : ExactRound choice target piece) :
      ExactOutcome choice family target piece (round.finish family)

variable {choice : GrammarChoice} {family : AnalysisFamily} {target : Option Span}
  {piece : Graph}

private theorem wanted_eq_none {owner : BracketFamily} {component : BracketComponent}
    {result other : SideResult} (exact : result.Exact choice owner component)
    (otherExact : other.Exact choice owner component)
    (irreflexive : ∀ asked, target = some asked → asked.isReflexive = false)
    (rejected : wanted target result.spans = none) : wanted target other.spans = none := by
  cases chosen : wanted target other.spans with
  | none => rfl
  | some spans =>
      obtain ⟨_, known, _⟩ := otherExact.wanted_agrees exact irreflexive chosen
      rw [rejected] at known
      cases known

private theorem ExactRound.not_missed (round : ExactRound choice target piece)
    (irreflexive : ∀ asked, target = some asked → asked.isReflexive = false)
    {alpha beta : SideResult} (alphaExact : alpha.Exact choice choice.alphaFamily
      piece.matchedBrackets) {alphaSpans : List Span} (chosen : wanted target alpha.spans =
      some alphaSpans) (betaExact : beta.Exact choice choice.alphaFamily.other
        (supportGraph alpha alphaSpans).matchedBrackets)
    (rejected : wanted target beta.spans = none) : False := by
  obtain ⟨others, known, sameMiddle, _⟩ :=
    alphaExact.wanted_agrees round.alphaExact irreflexive chosen
  rw [round.alphaChosen] at known
  cases known
  rw [← sameMiddle] at betaExact
  have missed := wanted_eq_none betaExact round.betaExact irreflexive rejected
  rw [round.betaChosen] at missed
  cases missed

/-- With exact results a round on a piece always ends alike. -/
theorem ExactOutcome.agrees {ended other : Round}
    (first : ExactOutcome choice family target piece ended)
    (second : ExactOutcome choice family target piece other)
    (irreflexive : ∀ asked, target = some asked → asked.isReflexive = false) :
    ended.Agrees other := by
  cases first with
  | alphaMisses exact rejected =>
      cases second with
      | alphaMisses => trivial
      | betaMisses => trivial
      | concluded round =>
          have missed := wanted_eq_none exact round.alphaExact irreflexive rejected
          rw [round.alphaChosen] at missed
          cases missed
  | betaMisses alphaExact chosen betaExact rejected =>
      cases second with
      | alphaMisses => trivial
      | betaMisses => trivial
      | concluded round =>
          exact (round.not_missed irreflexive alphaExact chosen betaExact rejected).elim
  | concluded round =>
      cases second with
      | alphaMisses exact rejected =>
          have missed := wanted_eq_none exact round.alphaExact irreflexive rejected
          rw [round.alphaChosen] at missed
          cases missed
      | betaMisses alphaExact chosen betaExact rejected =>
          exact (round.not_missed irreflexive alphaExact chosen betaExact rejected).elim
      | concluded other => exact (round.agrees other irreflexive family).2

end Outcomes

/-! ## Rounds on pieces that look alike -/

/-- Once unmatched brackets are left out, the pieces have the same labelled edges and equally
many edges. -/
structure Graph.Interchangeable (piece other : Graph) : Prop where
  isTrivial : piece.isTrivial = other.isTrivial
  edgeCount : piece.matchedBrackets.graph.edgeCount = other.matchedBrackets.graph.edgeCount
  mem_labelledEdges : ∀ edge, edge ∈ piece.matchedBrackets.graph.labelledEdges ↔
    edge ∈ other.matchedBrackets.graph.labelledEdges

theorem Graph.Interchangeable.refl (piece : Graph) : piece.Interchangeable piece :=
  ⟨rfl, rfl, fun _ => Iff.rfl⟩

section Interchange

variable {choice : GrammarChoice} {target : Option Span} {piece other : Graph}

private theorem SideResult.Exact.interchange {family : BracketFamily} {result : SideResult}
    (exact : result.Exact choice family piece.matchedBrackets)
    (alike : piece.Interchangeable other) : result.Exact choice family other.matchedBrackets :=
  exact.transfer piece.exact_matchedBrackets other.exact_matchedBrackets alike.mem_labelledEdges

/-- What can be the end of a round on a piece can be its end on an interchangeable one. -/
theorem ExactOutcome.interchange {family : AnalysisFamily} {ended : Round}
    (outcome : ExactOutcome choice family target piece ended)
    (alike : piece.Interchangeable other) : ExactOutcome choice family target other ended := by
  cases outcome with
  | alphaMisses exact rejected => exact .alphaMisses (exact.interchange alike) rejected
  | betaMisses alphaExact chosen betaExact rejected =>
      exact .betaMisses (alphaExact.interchange alike) chosen betaExact rejected
  | concluded round =>
      let moved : ExactRound choice target other :=
        { round with alphaExact := round.alphaExact.interchange alike }
      have same : moved.finish family = round.finish family := by
        unfold ExactRound.finish
        rw [alike.edgeCount]
        rfl
      exact same ▸ .concluded moved

end Interchange

namespace Session

open Round

private theorem solve_of_unknown {session : Session} {side : RefiningSide}
    {component : BracketComponent}
    (unknown : (session.memo side)[component.graph.contentHash]? = none) :
    (session.solve side component).1 = side.solve session.grammars component := by
  rcases memo_solve session side component with ⟨known, _⟩ | ⟨computed, _⟩
  · rw [unknown] at known
    cases known
  · exact computed

/-- A fresh session refines a piece by the results that its sides compute. -/
theorem refinePiece_ofSettings (settings : Settings) {target : Option Span} {piece : Graph}
    (fresh : ExactRound (settings.grammars settings.mode) target piece)
    (alpha : fresh.alpha =
      RefiningSide.alpha.solve (settings.grammars settings.mode) piece.matchedBrackets)
    (beta : fresh.beta =
      RefiningSide.beta.solve (settings.grammars settings.mode) fresh.middle.matchedBrackets) :
    ((ofSettings settings).refinePiece target piece).1 = fresh.finish settings.family ∧
      settings.leftOver target piece = some (fresh.left settings.family) := by
  constructor
  · have alphaRun : ((ofSettings settings).solve .alpha piece.matchedBrackets).1 = fresh.alpha := by
      rw [alpha, solve_of_unknown (by simp [memo, ofSettings])]
      rfl
    have betaUnknown : (((ofSettings settings).solve .alpha piece.matchedBrackets).2.memo
        .beta)[fresh.middle.matchedBrackets.graph.contentHash]? = none := by
      rcases memo_solve (ofSettings settings) .alpha piece.matchedBrackets with
        ⟨_, kept⟩ | ⟨_, changed⟩
      · rw [kept]
        simp [memo, ofSettings]
      · rw [changed]
        simp [memo, ofSettings]
    have betaRun : (((ofSettings settings).solve .alpha piece.matchedBrackets).2.solve .beta
        fresh.middle.matchedBrackets).1 = fresh.beta := by
      rw [beta, solve_of_unknown betaUnknown, grammars_solve]
      rfl
    have sameFamily : ((((ofSettings settings).solve .alpha piece.matchedBrackets).2.solve .beta
        fresh.middle.matchedBrackets).2).settings.family = settings.family := by
      rw [settings_solve, settings_solve]
      rfl
    unfold ExactRound.middle at betaRun sameFamily
    unfold refinePiece
    simp only [alphaRun, fresh.alphaChosen, betaRun, fresh.betaChosen, sameFamily]
    rfl
  · have alphaChosen := fresh.alphaChosen
    have betaChosen := fresh.betaChosen
    have middle : RefiningSide.alpha.supporting (settings.grammars settings.mode) target
        piece.matchedBrackets = some fresh.middle := by
      rw [alpha] at alphaChosen
      simp [RefiningSide.supporting, alphaChosen, ExactRound.middle, alpha]
    have support : RefiningSide.beta.supporting (settings.grammars settings.mode) target
        fresh.middle.matchedBrackets = some fresh.support := by
      rw [beta] at betaChosen
      simp [RefiningSide.supporting, betaChosen, ExactRound.support, beta]
    simp [Settings.leftOver, middle, support, ExactRound.left]

section Runs

variable {session : Session} {target : Option Span} {piece : Graph} {outcome : Round × Session}

private theorem continues_of_solve {session later : Session} {side : RefiningSide}
    {graph : Graph} {result : SideResult}
    (run : session.solve side graph.matchedBrackets = (result, later)) :
    session.Continues later := by
  have continues := session.continues_solve side graph.exact_matchedBrackets
  rw [run] at continues
  exact continues

private theorem exact_of_run {session later : Session} {side : RefiningSide} {graph : Graph}
    {result : SideResult} (faithful : session.Faithful)
    (run : session.solve side graph.matchedBrackets = (result, later))
    (free : CollisionFree later.asked) :
    result.Exact session.grammars (side.family session.grammars.alphaFamily)
      graph.matchedBrackets := by
  have exact := exact_of_solve faithful side graph.exact_matchedBrackets
  rw [run] at exact
  exact exact free

theorem PieceRun.continues (run : PieceRun session target piece outcome) :
    session.Continues outcome.2 := by
  cases run with
  | alphaMisses alphaRun _ => exact continues_of_solve alphaRun
  | betaMisses alphaRun _ betaRun _ =>
      exact (continues_of_solve alphaRun).trans (continues_of_solve betaRun)
  | concluded alphaRun _ betaRun _ =>
      exact (continues_of_solve alphaRun).trans (continues_of_solve betaRun)

/-- A faithful session with some settings, in the mode that they ask for. -/
structure Serves (settings : Settings) (session : Session) : Prop where
  faithful : session.Faithful
  sameSettings : session.settings = settings
  sameGrammars : session.grammars = settings.grammars settings.mode

theorem serves_ofSettings (settings : Settings) : (ofSettings settings).Serves settings :=
  ⟨faithful_ofSettings settings, rfl, rfl⟩

theorem PieceRun.serves {settings : Settings} (run : PieceRun session target piece outcome)
    (serves : session.Serves settings) : outcome.2.Serves settings :=
  ⟨run.continues.faithful serves.faithful, run.continues.settings.trans serves.sameSettings,
    run.continues.grammars.trans serves.sameGrammars⟩

/-- In a faithful session a round ends as exact results let it end. -/
theorem PieceRun.exactOutcome (run : PieceRun session target piece outcome)
    (faithful : session.Faithful) (free : CollisionFree outcome.2.asked) :
    ExactOutcome session.grammars session.settings.family target piece outcome.1 := by
  cases run with
  | alphaMisses alphaRun rejected =>
      exact .alphaMisses (exact_of_run faithful alphaRun free) rejected
  | @betaMisses alpha beta middle later alphaSpans alphaRun alphaChosen betaRun rejected =>
      have before := continues_of_solve alphaRun
      have behind := continues_of_solve betaRun
      have betaExact := exact_of_run (before.faithful faithful) betaRun free
      rw [before.grammars] at betaExact
      exact .betaMisses (exact_of_run faithful alphaRun (free.mono behind.asked)) alphaChosen
        betaExact rejected
  | @concluded alpha beta middle later alphaSpans betaSpans alphaRun alphaChosen betaRun
      betaChosen =>
      have before := continues_of_solve alphaRun
      have behind := continues_of_solve betaRun
      have alphaExact := exact_of_run faithful alphaRun (free.mono behind.asked)
      have betaExact := exact_of_run (before.faithful faithful) betaRun free
      rw [before.grammars] at betaExact
      rw [(before.trans behind).settings]
      exact .concluded
        ⟨alpha, beta, alphaSpans, betaSpans, alphaExact, alphaChosen, betaExact, betaChosen⟩

theorem PieceRun.exact_or_misses {settings : Settings}
    (run : PieceRun session target piece outcome) (serves : session.Serves settings)
    (free : CollisionFree outcome.2.asked) :
    (outcome.1 = .unreachable ∧ target.isSome = true) ∨
      ∃ round : ExactRound (settings.grammars settings.mode) target piece,
        outcome.1 = round.finish settings.family := by
  obtain ⟨faithful, rfl, grammars⟩ := serves
  have ended := run.exactOutcome faithful free
  rw [grammars] at ended
  generalize outcome.1 = round at ended
  cases ended with
  | alphaMisses _ rejected => exact Or.inl ⟨rfl, isSome_of_wanted rejected⟩
  | betaMisses _ _ _ rejected => exact Or.inl ⟨rfl, isSome_of_wanted rejected⟩
  | concluded round => exact Or.inr ⟨round, rfl⟩

end Runs

end Session

end GrammarReach
