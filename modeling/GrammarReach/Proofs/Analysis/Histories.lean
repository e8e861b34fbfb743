import GrammarReach.Proofs.Analysis.ExactBounds
import GrammarReach.Proofs.Analysis.ExactRounds

/-!
# Histories of a session

What a session remembers changes none of its answers.  Two sessions with the same family
and the same grammars refine in lockstep, whatever each of them remembers, as long as what
they remember is exact.  So neither an earlier request nor a clearing of the memory shows.
-/

namespace GrammarReach

/-! ## Two sessions side by side -/

namespace Session

/-- Both sessions are faithful and ask the same of a piece. -/
structure Mirrors (first second : Session) : Prop where
  faithful : first.Faithful
  otherFaithful : second.Faithful
  family : first.settings.family = second.settings.family
  grammars : first.grammars = second.grammars

theorem Rounds.continues {earlier later : Session} (rounds : earlier.Rounds later) :
    earlier.Continues later := by
  induction rounds with
  | refl => exact .refl earlier
  | tail _ step induction =>
      obtain ⟨target, piece, round, run⟩ := step
      exact induction.trans run.continues

theorem faithful_clearMemo (session : Session) : session.clearMemo.Faithful := by
  intro side key result found
  cases side <;> simp [memo, clearMemo] at found

theorem Faithful.setMode {session : Session} (faithful : session.Faithful)
    (mode : GrammarMode) : (session.setMode mode).Faithful := by
  unfold Session.setMode
  split
  · exact faithful
  · exact faithful_clearMemo _

section Mirrors

variable {first second : Session}

theorem Mirrors.clearMemo_left (mirrors : first.Mirrors second) :
    first.clearMemo.Mirrors second :=
  ⟨faithful_clearMemo first, mirrors.otherFaithful, mirrors.family, mirrors.grammars⟩

theorem Mirrors.clearMemo_right (mirrors : first.Mirrors second) :
    first.Mirrors second.clearMemo :=
  ⟨mirrors.faithful, faithful_clearMemo second, mirrors.family, mirrors.grammars⟩

theorem Mirrors.later {firstLater secondLater : Session} (mirrors : first.Mirrors second)
    (rounds : first.Rounds firstLater) (others : second.Rounds secondLater) :
    firstLater.Mirrors secondLater where
  faithful := rounds.continues.faithful mirrors.faithful
  otherFaithful := others.continues.faithful mirrors.otherFaithful
  family := by rw [rounds.continues.settings, others.continues.settings, mirrors.family]
  grammars := by rw [rounds.continues.grammars, others.continues.grammars, mirrors.grammars]

theorem Mirrors.agrees (mirrors : first.Mirrors second) {target : Option Span}
    {piece otherPiece : Graph} (alike : piece.Interchangeable otherPiece)
    {outcome other : Round × Session} (run : PieceRun first target piece outcome)
    (otherRun : PieceRun second target otherPiece other)
    (irreflexive : ∀ asked, target = some asked → asked.isReflexive = false)
    (free : CollisionFree outcome.2.asked) (otherFree : CollisionFree other.2.asked) :
    outcome.1.Agrees other.1 := by
  have ended := (run.exactOutcome mirrors.faithful free).interchange alike
  rw [mirrors.grammars, mirrors.family] at ended
  exact ended.agrees (otherRun.exactOutcome mirrors.otherFaithful otherFree) irreflexive

end Mirrors

end Session

/-! ## Two refinements in lockstep -/

namespace Refinement

/-- The graphs have the same size and the same parts to refine, up to what a round does not
see. -/
structure GraphsAlike (target : Option Span) (graph other : Graph) : Prop where
  edgeCount : graph.edgeCount = other.edgeCount
  containsTarget : graph.containsTarget target = other.containsTarget target
  parts : List.Forall₂ Graph.Interchangeable (relevantParts target graph)
    (relevantParts target other)

theorem GraphsAlike.refl (target : Option Span) (graph : Graph) :
    GraphsAlike target graph graph :=
  ⟨rfl, rfl, List.forall₂_same.mpr fun part _ => .refl part⟩

/-- Both refinements have come to the same point. -/
structure Mirrors (target : Option Span) (first second : Refinement) : Prop where
  session : first.session.Mirrors second.session
  found : ∀ span, span ∈ first.found ↔ span ∈ second.found
  pending : List.Forall₂ (GraphsAlike target) first.pending second.pending
  refuted : first.refuted = second.refuted

section Lockstep

variable {target : Option Span} {first second : Refinement}

private theorem Mirrors.after (mirrors : Mirrors target first second) {session other : Session}
    (sessions : session.Mirrors other) {round otherRound : Round}
    (agrees : round.Agrees otherRound) :
    Mirrors target (first.after session round) (second.after other otherRound) := by
  obtain ⟨_, found, pending, refuted⟩ := mirrors
  cases round with
  | converged spans =>
      obtain ⟨others, rfl, same⟩ := agrees.exists_converged
      refine ⟨sessions, fun span => ?_, pending, refuted⟩
      simp only [Refinement.after, Std.TreeSet.mem_insertMany_list, List.contains_iff_mem,
        found span, same span]
  | shrunk next =>
      cases agrees.eq_shrunk
      exact ⟨sessions, found, .cons (.refl target next) pending, refuted⟩
  | unreachable =>
      cases agrees.eq_unreachable
      exact ⟨sessions, found, pending, rfl⟩

private theorem Mirrors.refinePart (mirrors : Mirrors target first second) {part other : Graph}
    (alike : part.Interchangeable other)
    (irreflexive : ∀ asked, target = some asked → asked.isReflexive = false)
    (free : CollisionFree (refinePart target first part).session.asked)
    (otherFree : CollisionFree (refinePart target second other).session.asked) :
    Mirrors target (refinePart target first part) (refinePart target second other) := by
  have run := partRun_refinePart target first part
  have otherRun := partRun_refinePart target second other
  generalize Refinement.refinePart target first part = next at run free ⊢
  generalize Refinement.refinePart target second other = otherNext at otherRun otherFree ⊢
  cases run with
  | refuted refuted =>
      have same := mirrors.refuted.symm.trans refuted
      cases otherRun with
      | refuted => exact mirrors
      | skipped going => rw [same] at going; cases going
      | ran going => rw [same] at going; cases going
  | skipped going trivial =>
      have same := mirrors.refuted.symm.trans going
      cases otherRun with
      | refuted refuted => rw [same] at refuted; cases refuted
      | skipped => exact ⟨mirrors.session, mirrors.found, mirrors.pending, rfl⟩
      | ran _ active => rw [← alike.isTrivial, trivial] at active; cases active
  | @ran round session going active piece =>
      have same := mirrors.refuted.symm.trans going
      cases otherRun with
      | refuted refuted => rw [same] at refuted; cases refuted
      | skipped _ trivial => rw [← alike.isTrivial, active] at trivial; cases trivial
      | @ran otherRound otherSession _ _ otherPiece =>
          have freeNow : CollisionFree session.asked := by
            cases round <;> exact free
          have otherFreeNow : CollisionFree otherSession.asked := by
            cases otherRound <;> exact otherFree
          exact mirrors.after (mirrors.session.later piece.rounds otherPiece.rounds)
            (mirrors.session.agrees alike piece otherPiece irreflexive freeNow otherFreeNow)

private theorem Mirrors.parts (mirrors : Mirrors target first second)
    {parts others : List Graph} (alike : List.Forall₂ Graph.Interchangeable parts others)
    (irreflexive : ∀ asked, target = some asked → asked.isReflexive = false)
    (free : CollisionFree (parts.foldl (Refinement.refinePart target) first).session.asked)
    (otherFree : CollisionFree
      (others.foldl (Refinement.refinePart target) second).session.asked) :
    Mirrors target (parts.foldl (Refinement.refinePart target) first)
      (others.foldl (Refinement.refinePart target) second) := by
  induction alike generalizing first second with
  | nil => exact mirrors
  | @cons part other parts others same _ induction =>
      have step := mirrors.refinePart same irreflexive
        (free.mono (rounds_parts target _ parts).precedes.asked)
        (otherFree.mono (rounds_parts target _ others).precedes.asked)
      exact induction step free otherFree

private theorem Mirrors.refineGraph (mirrors : Mirrors target first second)
    {graph other : Graph} (alike : GraphsAlike target graph other)
    (irreflexive : ∀ asked, target = some asked → asked.isReflexive = false)
    (free : CollisionFree (refineGraph target first graph).session.asked)
    (otherFree : CollisionFree (refineGraph target second other).session.asked) :
    Mirrors target (refineGraph target first graph) (refineGraph target second other) := by
  have empty : (relevantParts target graph).isEmpty = (relevantParts target other).isEmpty := by
    have parts := alike.parts
    generalize relevantParts target graph = left at parts ⊢
    generalize relevantParts target other = right at parts ⊢
    cases parts <;> rfl
  unfold Refinement.refineGraph at free otherFree ⊢
  simp only [empty] at free otherFree ⊢
  split
  · exact ⟨mirrors.session, mirrors.found, mirrors.pending, rfl⟩
  · rename_i missed
    rw [if_neg missed] at free otherFree
    exact mirrors.parts alike.parts irreflexive free otherFree

/-- Two refinements that have come to the same point end at the same point. -/
theorem Mirrors.run (mirrors : Mirrors target first second) {bound : Nat}
    (irreflexive : ∀ asked, target = some asked → asked.isReflexive = false)
    (free : CollisionFree (run target bound first).session.asked)
    (otherFree : CollisionFree (run target bound second).session.asked) :
    Mirrors target (run target bound first) (run target bound second) := by
  induction bound generalizing first second with
  | zero => exact mirrors
  | succ bound induction =>
      rcases run_succ target bound first with ⟨same, settled⟩ | ⟨graph, rest, going, pending, same⟩
      · rcases run_succ target bound second with
          ⟨otherSame, _⟩ | ⟨graph, rest, going, pending, _⟩
        · rw [same, otherSame]
          exact mirrors
        · have graphs := mirrors.pending
          rw [pending] at graphs
          cases firstPending : first.pending with
          | nil => rw [firstPending] at graphs; cases graphs
          | cons => simp [mirrors.refuted, going, firstPending] at settled
      · rcases run_succ target bound second with
          ⟨_, settled⟩ | ⟨other, others, _, otherPending, otherSame⟩
        · have graphs := mirrors.pending
          rw [pending] at graphs
          cases secondPending : second.pending with
          | nil => rw [secondPending] at graphs; cases graphs
          | cons => simp [← mirrors.refuted, going, secondPending] at settled
        · have graphs := mirrors.pending
          rw [pending, otherPending, List.forall₂_cons] at graphs
          rw [same] at free ⊢
          rw [otherSame] at otherFree ⊢
          have start : Mirrors target { first with pending := rest }
              { second with pending := others } :=
            ⟨mirrors.session, mirrors.found, graphs.2, mirrors.refuted⟩
          refine induction (start.refineGraph graphs.1 irreflexive ?_ ?_) free otherFree
          · exact free.mono (rounds_run target bound _).precedes.asked
          · exact otherFree.mono (rounds_run target bound _).precedes.asked

theorem Mirrors.mem_answers (mirrors : Mirrors target first second) (span : Span) :
    span ∈ first.answers ↔ span ∈ second.answers := by
  unfold answers
  rw [mirrors.refuted]
  split
  · rfl
  · exact mirrors.found span

end Lockstep

end Refinement

namespace Session

section Requests

variable {first second : Session} {graph other : Graph} {target : Option Span}

/-- Both sessions answer a target between different vertices, or all spans, alike in graphs
that look alike. -/
theorem Mirrors.mutualRefinement (mirrors : first.Mirrors second)
    (alike : Refinement.GraphsAlike target graph other)
    (irreflexive : ∀ asked, target = some asked → asked.isReflexive = false)
    (free : CollisionFree (first.mutualRefinement graph target).2.asked)
    (otherFree : CollisionFree (second.mutualRefinement other target).2.asked) :
    (first.mutualRefinement graph target).1.toList =
        (second.mutualRefinement other target).1.toList ∧
      (first.mutualRefinement graph target).2.Mirrors
        (second.mutualRefinement other target).2 := by
  refine ⟨?_, mirrors.later (first.rounds_mutualRefinement graph target)
    (second.rounds_mutualRefinement other target)⟩
  unfold Session.mutualRefinement at free otherFree ⊢
  rw [← alike.containsTarget, ← alike.edgeCount] at otherFree ⊢
  by_cases contains : graph.containsTarget target = true
  · rw [if_pos contains] at free otherFree ⊢
    rw [if_pos contains]
    have start : Refinement.Mirrors target { session := first, pending := [graph] }
        { session := second, pending := [other] } :=
      ⟨mirrors, fun _ => Iff.rfl, .cons alike .nil, rfl⟩
    exact Std.TreeSet.Equiv.toList_eq
      (.of_forall_mem_iff (start.run irreflexive free otherFree).mem_answers)
  · rw [if_neg contains, if_neg contains]

private theorem toList_eq_nil_of_reflexive {session : Session} (valid : session.Valid)
    {asked : Span} (reflexive : asked.isReflexive = true)
    (free : CollisionFree (session.mutualRefinement graph (some asked)).2.asked) :
    (session.mutualRefinement graph (some asked)).1.toList = [] := by
  rw [List.eq_nil_iff_forall_not_mem]
  intro span member
  have confirmed :=
    confirmed_of_mutualRefinement valid free (Std.TreeSet.mem_toList.mp member)
  have irreflexive := confirmed.irreflexive
  rw [confirmed.fits asked rfl, reflexive] at irreflexive
  cases irreflexive

/-- Valid sessions that mirror each other answer every target alike in graphs that look
alike. -/
theorem Mirrors.toList_of_alike (mirrors : first.Mirrors second)
    (alike : Refinement.GraphsAlike target graph other)
    (valid : first.Valid) (otherValid : second.Valid)
    (free : CollisionFree (first.mutualRefinement graph target).2.asked)
    (otherFree : CollisionFree (second.mutualRefinement other target).2.asked) :
    (first.mutualRefinement graph target).1.toList =
      (second.mutualRefinement other target).1.toList := by
  by_cases irreflexive : ∀ asked, target = some asked → asked.isReflexive = false
  · exact (mirrors.mutualRefinement alike irreflexive free otherFree).1
  · simp only [not_forall, Bool.not_eq_false] at irreflexive
    obtain ⟨asked, rfl, reflexive⟩ := irreflexive
    rw [toList_eq_nil_of_reflexive valid reflexive free,
      toList_eq_nil_of_reflexive otherValid reflexive otherFree]

theorem Mirrors.toList_mutualRefinement (mirrors : first.Mirrors second)
    (valid : first.Valid) (otherValid : second.Valid)
    (free : CollisionFree (first.mutualRefinement graph target).2.asked)
    (otherFree : CollisionFree (second.mutualRefinement graph target).2.asked) :
    (first.mutualRefinement graph target).1.toList =
      (second.mutualRefinement graph target).1.toList :=
  mirrors.toList_of_alike (.refl target graph) valid otherValid free otherFree

end Requests

/-! ## Requests -/

/-- What can be asked of a session. -/
inductive Request where
  | refine (graph : Graph) (target : Option Span)
  | setMode (mode : GrammarMode)
  | clearMemo

/-- The session after a request. -/
def serve (session : Session) : Request → Session
  | .refine graph target => (session.mutualRefinement graph target).2
  | .setMode mode => session.setMode mode
  | .clearMemo => session.clearMemo

/-- The session that some requests make of a fresh one. -/
def afterRequests (settings : Settings) (requests : List Request) : Session :=
  requests.foldl serve (ofSettings settings)

private theorem afterRequests_induction {settings : Settings} {holds : Session → Prop}
    (fresh : holds (ofSettings settings))
    (step : ∀ session request, holds session → holds (serve session request))
    (requests : List Request) : holds (afterRequests settings requests) := by
  have general : ∀ session, holds session → holds (requests.foldl serve session) := by
    induction requests with
    | nil => exact fun _ known => known
    | cons request requests induction =>
        exact fun session known => induction _ (step session request known)
  exact general _ fresh

theorem reachable_afterRequests (settings : Settings) (requests : List Request) :
    (afterRequests settings requests).Reachable settings := by
  refine afterRequests_induction .fresh (fun session request reachable => ?_) requests
  cases request with
  | refine graph target => exact .mutualRefinement graph target reachable
  | setMode mode => exact .setMode mode reachable
  | clearMemo => exact .clearMemo reachable

theorem faithful_afterRequests (settings : Settings) (requests : List Request) :
    (afterRequests settings requests).Faithful := by
  refine afterRequests_induction (faithful_ofSettings settings)
    (fun session request faithful => ?_) requests
  cases request with
  | refine graph target =>
      exact (session.rounds_mutualRefinement graph target).continues.faithful faithful
  | setMode mode => exact faithful.setMode mode
  | clearMemo => exact faithful_clearMemo session

theorem mirrors_afterRequests (settings : Settings) (requests : List Request) :
    (afterRequests settings requests).Mirrors
      ((ofSettings settings).setMode (afterRequests settings requests).mode) := by
  have same := (reachable_afterRequests settings requests).valid.2
  have setUp := ((ofSettings settings).before_setMode
    (afterRequests settings requests).mode).settings
  refine ⟨faithful_afterRequests settings requests,
    (faithful_ofSettings settings).setMode _, ?_, ?_⟩
  · rw [same, setUp]
    rfl
  · rw [grammars, grammars, mode_setMode, same, setUp]
    rfl

end Session

/-! ## Two inquiries in lockstep -/

namespace Inquiry

/-- The condensations stand alike for every span, and their graphs look alike. -/
structure CondensationsAlike (condensation other : Condensation) : Prop where
  lift : ∀ span, condensation.lift span = other.lift span
  graph : ∀ target, Refinement.GraphsAlike target condensation.graph other.graph

theorem CondensationsAlike.refl (condensation : Condensation) :
    CondensationsAlike condensation condensation :=
  ⟨fun _ => rfl, fun target => .refl target condensation.graph⟩

/-- Both inquiries have found out the same, and what they have confirmed is related. -/
structure Mirrors (related : SpanSet → SpanSet → Prop) (first second : Inquiry) : Prop where
  session : first.session.Mirrors second.session
  decided : first.decided = second.decided
  confirmed : related first.confirmed second.confirmed

section Lockstep

variable {related : SpanSet → SpanSet → Prop} {condensation condensed : Condensation}
  {first second : Inquiry} {span : Span} {outcome other : Bool × Inquiry}

private theorem Mirrors.decide (mirrors : Mirrors related first second)
    (alike : CondensationsAlike condensation condensed)
    (decision : Decision condensation first span outcome)
    (otherDecision : Decision condensed second span other)
    (free : CollisionFree outcome.2.session.asked)
    (otherFree : CollisionFree other.2.session.asked) :
    outcome.1 = other.1 ∧ Mirrors related outcome.2 other.2 := by
  cases decision with
  | reflexive reflexive =>
      cases otherDecision with
      | reflexive => exact ⟨rfl, mirrors⟩
      | known apart => rw [reflexive] at apart; cases apart
      | refined apart => rw [reflexive] at apart; cases apart
  | known apart known =>
      rw [mirrors.decided] at known
      cases otherDecision with
      | reflexive reflexive => rw [apart] at reflexive; cases reflexive
      | known _ otherKnown =>
          rw [known] at otherKnown
          cases otherKnown
          exact ⟨rfl, mirrors⟩
      | refined _ unknown => rw [known] at unknown; cases unknown
  | refined apart unknown refines =>
      rw [mirrors.decided] at unknown
      cases otherDecision with
      | reflexive reflexive => rw [apart] at reflexive; cases reflexive
      | known _ known => rw [unknown] at known; cases known
      | refined _ _ otherRefines =>
          have answered := @Session.Mirrors.mutualRefinement _ _ _ _ (some span)
            mirrors.session (alike.graph (some span)) (fun _ same => Option.some.inj same ▸ apart)
          rw [refines, otherRefines] at answered
          obtain ⟨found, sessions⟩ := answered free otherFree
          have answers := congrArg List.isEmpty found
          simp only [Std.TreeSet.isEmpty_toList] at answers
          refine ⟨by simp only [answers], sessions, ?_, mirrors.confirmed⟩
          simp only [answers, mirrors.decided]

private theorem Mirrors.refreshed (mirrors : Mirrors related first second)
    (interval others : Nat) (place : Nat) :
    Mirrors related (first.refreshed interval place) (second.refreshed others place) := by
  have left : Mirrors related (first.refreshed interval place) second := by
    unfold Inquiry.refreshed
    split
    · exact ⟨mirrors.session.clearMemo_left, mirrors.decided, mirrors.confirmed⟩
    · exact mirrors
  generalize first.refreshed interval place = now at left ⊢
  unfold Inquiry.refreshed
  split
  · exact ⟨left.session.clearMemo_right, left.decided, left.confirmed⟩
  · exact left

variable (insert : ∀ {known others : SpanSet} (span : Span), related known others →
  related (known.insert span) (others.insert span))

include insert

private theorem Mirrors.ask (mirrors : Mirrors related first second)
    (alike : CondensationsAlike condensation condensed) {interval others : Nat}
    {question : Span × Nat}
    (free : CollisionFree (first.ask condensation interval question).session.asked)
    (otherFree : CollisionFree (second.ask condensed others question).session.asked) :
    Mirrors related (first.ask condensation interval question)
      (second.ask condensed others question) := by
  obtain ⟨outcome, decision, same⟩ := exists_decision_ask condensation interval first question
  obtain ⟨other, otherDecision, otherSame⟩ :=
    exists_decision_ask condensed others second question
  have freeNow : CollisionFree outcome.2.session.asked := by
    rw [same] at free
    split at free <;> exact free
  have otherFreeNow : CollisionFree other.2.session.asked := by
    rw [otherSame] at otherFree
    split at otherFree <;> exact otherFree
  rw [← alike.lift] at otherDecision
  obtain ⟨answers, later⟩ := (mirrors.refreshed interval others question.2).decide alike
    decision otherDecision freeNow otherFreeNow
  rw [same, otherSame, answers]
  split
  · exact ⟨later.session, later.decided, insert question.1 later.confirmed⟩
  · exact later

/-- Inquiries that have found out the same answer all further questions alike. -/
theorem Mirrors.questions (mirrors : Mirrors related first second)
    (alike : CondensationsAlike condensation condensed) {interval others : Nat}
    {questions : List (Span × Nat)}
    (free : CollisionFree
      (questions.foldl (Inquiry.ask condensation interval) first).session.asked)
    (otherFree : CollisionFree
      (questions.foldl (Inquiry.ask condensed others) second).session.asked) :
    Mirrors related (questions.foldl (Inquiry.ask condensation interval) first)
      (questions.foldl (Inquiry.ask condensed others) second) := by
  induction questions generalizing first second with
  | nil => exact mirrors
  | cons question questions induction =>
      have step := @Mirrors.ask _ _ _ _ _ insert mirrors alike interval others question
        (free.mono (@precedes_questions condensation interval _ questions).asked)
        (otherFree.mono (@precedes_questions condensed others _ questions).asked)
      exact induction step free otherFree

end Lockstep

end Inquiry

/-! ## Two analyses -/

namespace Session

section Analyses

variable {first second : Session} {graph : Graph} {under upper : SpanSet}
  {mode : GrammarMode} {interval : Nat}

private theorem Mirrors.refineCondensed (mirrors : first.Mirrors second)
    (free : CollisionFree (first.refineCondensed graph under).2.asked)
    (otherFree : CollisionFree (second.refineCondensed graph under).2.asked) :
    (first.refineCondensed graph under).1 = (second.refineCondensed graph under).1 ∧
      (first.refineCondensed graph under).2.Mirrors
        (second.refineCondensed graph under).2 := by
  rw [first.refineCondensed_eq] at free ⊢
  rw [second.refineCondensed_eq] at otherFree ⊢
  generalize Condensation.ofKnown graph under = condensation at free otherFree ⊢
  simp only at free otherFree ⊢
  obtain ⟨found, later⟩ := mirrors.mutualRefinement (.refl none condensation.graph) (by simp)
    free otherFree
  exact ⟨by rw [found], later⟩

private theorem Mirrors.onDemand (mirrors : first.Mirrors second)
    {outcome other : SpanSet × Session} (asked : first.onDemand graph under upper = outcome)
    (otherAsked : second.onDemand graph under upper = other)
    (free : CollisionFree outcome.2.asked) (otherFree : CollisionFree other.2.asked) :
    outcome.1 = other.1 := by
  have start : Inquiry.Mirrors Eq { session := first, confirmed := under }
      { session := second, confirmed := under } :=
    ⟨mirrors, rfl, rfl⟩
  subst asked otherAsked
  rw [first.onDemand_eq] at free ⊢
  rw [second.onDemand_eq] at otherFree ⊢
  exact (start.questions (fun _ same => same ▸ rfl) (.refl _) free otherFree).confirmed

theorem precedes_of_onDemand {confirmed : SpanSet} {later : Session}
    (asked : first.onDemand graph under upper = (confirmed, later)) :
    first.Precedes later := by
  have questions := first.precedes_onDemand graph under upper
  rwa [asked] at questions

/-- Sessions that differ in the mode they start in and in when they forget enter a stage
alike. -/
theorem mirrors_setUp
    (same : second.settings = { first.settings with mode, cacheClearInterval := interval })
    (stage : GrammarMode) :
    (first.clearMemo.setMode stage).Mirrors (second.clearMemo.setMode stage) where
  faithful := (faithful_clearMemo first).setMode stage
  otherFaithful := (faithful_clearMemo second).setMode stage
  family := by
    rw [(first.before_setUp stage).settings, (second.before_setUp stage).settings, same]
  grammars := by
    rw [grammars_setUp, grammars_setUp, same]
    rfl

private theorem StageRun.alike {stage : GrammarMode} {outcome other : SpanSet × Session}
    (run : StageRun first stage graph under upper outcome)
    (otherRun : StageRun second stage graph under upper other)
    (same : second.settings = { first.settings with mode, cacheClearInterval := interval })
    (free : CollisionFree outcome.2.asked) (otherFree : CollisionFree other.2.asked) :
    outcome.1 = other.1 ∧ outcome.2.Mirrors other.2 := by
  cases run with
  | refined refines =>
      cases otherRun with
      | refined otherRefines =>
          have alike := @Mirrors.refineCondensed _ _ graph under (mirrors_setUp same stage)
          rw [refines, otherRefines] at alike
          obtain ⟨found, later⟩ := alike free otherFree
          exact ⟨congrArg (SpanSet.common · upper) found, later⟩

/-- The stages do not depend on the mode that a session starts in, on when it forgets or
on what it remembers. -/
theorem analyze_eq_of_settings {input : Graph}
    (same : second.settings = { first.settings with mode, cacheClearInterval := interval })
    (free : CollisionFree (first.analyze input).2.asked)
    (otherFree : CollisionFree (second.analyze input).2.asked) :
    (first.analyze input).1 = (second.analyze input).1 := by
  have regularization :
      (first.analyze input).1.regularization = (second.analyze input).1.regularization := by
    rw [regularization_analyze, regularization_analyze, same]
    rfl
  have run := analysisRun_analyze first input
  have otherRun := analysisRun_analyze second input
  generalize first.analyze input = outcome at run free regularization ⊢
  generalize second.analyze input = other at otherRun otherFree regularization ⊢
  cases run with
  | stages start upperEq narrowedEq underEq classicRun augmentedRun asked =>
      cases otherRun with
      | stages otherStart otherUpper otherNarrowed otherUnder otherClassic otherAugmented
          otherAsked =>
          rw [same] at otherStart otherUpper otherUnder
          cases start.symm.trans otherStart
          cases upperEq.symm.trans otherUpper
          cases narrowedEq.symm.trans otherNarrowed
          cases underEq.symm.trans otherUnder
          have freeSecond := free.mono (precedes_of_onDemand asked).asked
          have otherFreeSecond := otherFree.mono (precedes_of_onDemand otherAsked).asked
          obtain ⟨classicEq, _⟩ := classicRun.alike otherClassic same
            (freeSecond.mono augmentedRun.later.1.asked)
            (otherFreeSecond.mono otherAugmented.later.1.asked)
          cases classicEq
          have sameLater := otherClassic.later.1.settings.trans same
          rw [← classicRun.later.1.settings] at sameLater
          obtain ⟨augmentedEq, mirrors⟩ :=
            augmentedRun.alike otherAugmented sameLater freeSecond otherFreeSecond
          cases augmentedEq
          cases mirrors.onDemand asked otherAsked free otherFree
          cases regularization
          rfl

theorem before_analyze (session : Session) (input : Graph) :
    session.Before (session.analyze input).2 := by
  have run := analysisRun_analyze session input
  generalize session.analyze input = outcome at run ⊢
  cases run with
  | stages _ _ _ _ classicRun augmentedRun asked =>
      exact (classicRun.later.1.trans augmentedRun.later.1).trans
        (precedes_of_onDemand asked).toBefore

end Analyses

/-- The session that some analyses make of a fresh one. -/
def afterAnalyses (settings : Settings) (inputs : List Graph) : Session :=
  inputs.foldl (fun session input => (session.analyze input).2) (ofSettings settings)

theorem settings_afterAnalyses (settings : Settings) (inputs : List Graph) :
    (afterAnalyses settings inputs).settings = settings := by
  have general : ∀ session : Session,
      (inputs.foldl (fun session input => (session.analyze input).2) session).settings =
        session.settings := by
    induction inputs with
    | nil => exact fun _ => rfl
    | cons input inputs induction =>
        intro session
        rw [List.foldl_cons, induction, (session.before_analyze input).settings]
  exact general (ofSettings settings)

/-- No answer depends on what was asked before: refinement answers as in a fresh session in
the same mode, and an analysis finds what a fresh session does, whichever mode that one starts
in and whenever it forgets. -/
theorem history_invisible (settings : Settings) :
    (∀ (requests : List Request) (graph : Graph) (target : Option Span),
      CollisionFree ((afterRequests settings requests).mutualRefinement graph target).2.asked →
      CollisionFree (((ofSettings settings).setMode
        (afterRequests settings requests).mode).mutualRefinement graph target).2.asked →
      ((afterRequests settings requests).mutualRefinement graph target).1.toList =
        (((ofSettings settings).setMode
          (afterRequests settings requests).mode).mutualRefinement graph target).1.toList) ∧
    ∀ (inputs : List Graph) (input : Graph) (mode : GrammarMode) (interval : Nat),
      CollisionFree ((afterAnalyses settings inputs).analyze input).2.asked →
      CollisionFree ((ofSettings { settings with mode, cacheClearInterval := interval }).analyze
        input).2.asked →
      ((afterAnalyses settings inputs).analyze input).1 =
        ((ofSettings { settings with mode, cacheClearInterval := interval }).analyze
          input).1 := by
  constructor
  · intro requests graph target free otherFree
    exact (mirrors_afterRequests settings requests).toList_mutualRefinement
      (reachable_afterRequests settings requests).valid.1
      (Reachable.fresh.setMode _).valid.1 free otherFree
  · intro inputs input mode interval free otherFree
    refine @analyze_eq_of_settings _ _ mode interval input ?_ free otherFree
    rw [settings_afterAnalyses]
    rfl

/-- A pair of brackets is answered alike after a question about it, and a value flow is found
alike after an analysis of another graph and by a session that starts in the other mode. -/
theorem history_invisible_flowPath :
    ((afterRequests { parityClasses := 1 }
        [.refine (.ofEdges flowPath) (some ⟨0, 2⟩)]).mutualRefinement
          (.ofEdges flowPath) none).1.toList =
        (((ofSettings { parityClasses := 1 }).setMode .classic).mutualRefinement
          (.ofEdges flowPath) none).1.toList ∧
      ((afterAnalyses flowSession.settings [.ofEdges crossingPath]).analyze
        (.ofEdges flowPath)).1 =
        ((ofSettings { flowSession.settings with
          mode := .augmented, cacheClearInterval := 1 }).analyze (.ofEdges flowPath)).1 := by
  constructor
  · have sameMode : (afterRequests { parityClasses := 1 }
        [.refine (.ofEdges flowPath) (some ⟨0, 2⟩)]).mode = .classic := by
      decide +kernel
    have answered := (history_invisible { parityClasses := 1 }).1
      [.refine (.ofEdges flowPath) (some ⟨0, 2⟩)] (.ofEdges flowPath) none
    rw [sameMode] at answered
    exact answered (by decide +kernel) (by decide +kernel)
  · exact (history_invisible flowSession.settings).2 [.ofEdges crossingPath] (.ofEdges flowPath)
      .augmented 1 (by decide +kernel) (by decide +kernel)

end Session

end GrammarReach
