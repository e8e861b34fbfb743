import GrammarReach.Analysis.Stages
import GrammarReach.Proofs.Analysis.Refinement
import GrammarReach.Proofs.Graph.Condensation

/-!
# Questions about a condensed graph

On the condensed graph refinement within a machine word still answers the span of every
balanced walk, for all spans at once and for one span at a time.  The questions of the last stage add no
span that was not asked for.
-/

namespace GrammarReach

/-! ## All spans at once -/

section Condensed

variable {session : Session} {graph : Graph} {under : SpanSet}

theorem Session.refineCondensed_eq (session : Session) (graph : Graph) (under : SpanSet) :
    session.refineCondensed graph under =
      ((Condensation.ofKnown graph under).expand
          ((session.mutualRefinement (Condensation.ofKnown graph under).graph none).1.toList.filter
            fun span => !span.isReflexive),
        (session.mutualRefinement (Condensation.ofKnown graph under).graph none).2) := by
  unfold Session.refineCondensed
  generalize Condensation.ofKnown graph under = condensation
  simp only

private theorem exists_condensation (session : Session) (graph : Graph) (under : SpanSet) :
    ∃ condensation : Condensation, condensation.Covers graph ∧
      session.refineCondensed graph under =
        (condensation.expand
            ((session.mutualRefinement condensation.graph none).1.toList.filter
              fun span => !span.isReflexive),
          (session.mutualRefinement condensation.graph none).2) :=
  ⟨_, Condensation.covers_ofKnown graph under, session.refineCondensed_eq graph under⟩

theorem Session.precedes_refineCondensed (session : Session) (graph : Graph)
    (under : SpanSet) : session.Precedes (session.refineCondensed graph under).2 := by
  obtain ⟨condensation, _, same⟩ := exists_condensation session graph under
  rw [same]
  exact session.precedes_mutualRefinement _ none

theorem Session.mem_refineCondensed (valid : session.Valid)
    (within : session.grammars.WithinWord)
    (free : CollisionFree (session.refineCondensed graph under).2.asked) {span : Span}
    {path : List Edge} (walk : BalancedWalk session.settings.family graph span path)
    (irreflexive : span.isReflexive = false) :
    span ∈ (session.refineCondensed graph under).1 := by
  obtain ⟨condensation, covers, same⟩ := exists_condensation session graph under
  rw [same] at free ⊢
  apply covers.mem_expand_of_walk walk.toCanonicalWalk irreflexive
  intro apart
  have answered := mem_mutualRefinement valid within covers.built free (covers.lift_walk walk)
    apart fun _ missing => nomatch missing
  exact List.mem_filter.mpr ⟨Std.TreeSet.mem_toList.mpr answered, by simp [apart]⟩

end Condensed

namespace Inquiry

/-! ## One decision -/

/-- How a span of representatives is decided: it is reflexive, it was decided before, or
it is refined as a target. -/
inductive Decision (condensation : Condensation) (state : Inquiry) (span : Span) :
    Bool × Inquiry → Prop where
  | reflexive : span.isReflexive = true → Decision condensation state span (true, state)
  | known {answer : Bool} : span.isReflexive = false → state.decided[span]? = some answer →
      Decision condensation state span (answer, state)
  | refined {found : SpanSet} {session : Session} : span.isReflexive = false →
      state.decided[span]? = none →
      state.session.mutualRefinement condensation.graph (some span) = (found, session) →
      Decision condensation state span
        (!found.isEmpty,
          { state with session, decided := state.decided.insert span (!found.isEmpty) })

theorem decision_decide (condensation : Condensation) (state : Inquiry) (span : Span) :
    Decision condensation state span (state.decide condensation span) := by
  unfold decide
  split
  · rename_i reflexive
    exact .reflexive reflexive
  · rename_i irreflexive
    have apart : span.isReflexive = false := by simpa using irreflexive
    cases known : state.decided[span]? with
    | some answer => exact .known apart known
    | none => exact .refined apart known rfl

/-- No span of a balanced walk was decided to be no answer. -/
def Honest (analysis : AnalysisFamily) (condensation : Condensation) (state : Inquiry) : Prop :=
  ∀ span path, BalancedWalk analysis condensation.graph span path →
    state.decided[span]? ≠ some false

section Decision

variable {condensation : Condensation} {state : Inquiry} {span : Span}
  {outcome : Bool × Inquiry}

theorem Decision.precedes (decision : Decision condensation state span outcome) :
    state.session.Precedes outcome.2.session := by
  cases decision with
  | reflexive => exact .refl _
  | known => exact .refl _
  | refined _ _ refines =>
      have later := state.session.precedes_mutualRefinement condensation.graph (some span)
      rw [refines] at later
      exact later

theorem Decision.confirmed (decision : Decision condensation state span outcome) :
    outcome.2.confirmed = state.confirmed := by
  cases decision <;> rfl

private theorem Decision.honest (decision : Decision condensation state span outcome)
    (built : condensation.graph.Built) (valid : state.session.Valid)
    (within : state.session.grammars.WithinWord)
    (free : CollisionFree outcome.2.session.asked)
    (honest : state.Honest state.session.settings.family condensation) :
    outcome.2.Honest state.session.settings.family condensation ∧
      ∀ path, BalancedWalk state.session.settings.family condensation.graph span path →
        outcome.1 = true := by
  cases decision with
  | reflexive => exact ⟨honest, fun _ _ => rfl⟩
  | @known answer _ known =>
      refine ⟨honest, fun path walk => ?_⟩
      have positive := honest span path walk
      rw [known] at positive
      simpa using positive
  | @refined found session apart _ refines =>
      have answered : ∀ path,
          BalancedWalk state.session.settings.family condensation.graph span path →
          (!found.isEmpty) = true := by
        intro path walk
        have surviving : CollisionFree (state.session.mutualRefinement condensation.graph
            (some span)).2.asked := by
          rw [refines]
          exact free
        have member := Session.mem_mutualRefinement valid within built surviving walk apart
          fun _ same => Option.some.inj same
        rw [refines] at member
        have inhabited := Std.TreeSet.isEmpty_eq_false_iff_exists_mem.mpr ⟨_, member⟩
        rw [inhabited]
        rfl
      refine ⟨fun other path walk => ?_, answered⟩
      rw [Std.TreeMap.getElem?_insert]
      split
      · rename_i same
        rw [Std.LawfulEqOrd.compare_eq_iff_eq] at same
        subst same
        rw [answered path walk]
        simp
      · exact honest other path walk

end Decision

/-! ## One question -/

section Question

variable {condensation : Condensation} {interval : Nat} {state : Inquiry}
  {question : Span × Nat}

/-- The state in which a question is decided. -/
def refreshed (interval : Nat) (state : Inquiry) (place : Nat) : Inquiry :=
  if place % interval = 0 then { state with session := state.session.clearMemo } else state

theorem precedes_refreshed (interval : Nat) (state : Inquiry) (place : Nat) :
    state.session.Precedes (state.refreshed interval place).session := by
  unfold refreshed
  split
  · exact state.session.precedes_clearMemo
  · exact .refl _

private theorem decided_refreshed (interval : Nat) (state : Inquiry) (place : Nat) :
    (state.refreshed interval place).decided = state.decided := by
  unfold refreshed
  split <;> rfl

private theorem confirmed_refreshed (interval : Nat) (state : Inquiry) (place : Nat) :
    (state.refreshed interval place).confirmed = state.confirmed := by
  unfold refreshed
  split <;> rfl

theorem exists_decision_ask (condensation : Condensation) (interval : Nat)
    (state : Inquiry) (question : Span × Nat) :
    ∃ outcome, Decision condensation (state.refreshed interval question.2)
        (condensation.lift question.1) outcome ∧
      state.ask condensation interval question =
        if outcome.1 then
          { outcome.2 with confirmed := outcome.2.confirmed.insert question.1 }
        else outcome.2 :=
  ⟨_, decision_decide condensation _ _, rfl⟩

theorem precedes_ask :
    state.session.Precedes (state.ask condensation interval question).session := by
  obtain ⟨outcome, decision, same⟩ := exists_decision_ask condensation interval state question
  have later := (precedes_refreshed interval state question.2).trans decision.precedes
  rw [same]
  split
  · exact later
  · exact later

private theorem mem_confirmed_ask {span : Span} :
    (span ∈ state.confirmed → span ∈ (state.ask condensation interval question).confirmed) ∧
      (span ∈ (state.ask condensation interval question).confirmed →
        span ∈ state.confirmed ∨ span = question.1) := by
  obtain ⟨outcome, decision, same⟩ := exists_decision_ask condensation interval state question
  have kept := decision.confirmed.trans (confirmed_refreshed interval state question.2)
  rw [same, ← kept]
  split
  · rw [Std.TreeSet.mem_insert, Std.LawfulEqOrd.compare_eq_iff_eq]
    exact ⟨Or.inr, fun member => (Or.symm member).imp_right Eq.symm⟩
  · exact ⟨id, Or.inl⟩

private theorem honest_ask (built : condensation.graph.Built) (valid : state.session.Valid)
    (within : state.session.grammars.WithinWord)
    (free : CollisionFree (state.ask condensation interval question).session.asked)
    (honest : state.Honest state.session.settings.family condensation) :
    (state.ask condensation interval question).Honest state.session.settings.family
        condensation ∧
      ∀ path, BalancedWalk state.session.settings.family condensation.graph
          (condensation.lift question.1) path →
        question.1 ∈ (state.ask condensation interval question).confirmed := by
  obtain ⟨outcome, decision, same⟩ := exists_decision_ask condensation interval state question
  have earlier := precedes_refreshed interval state question.2
  have freeNow : CollisionFree outcome.2.session.asked := by
    rw [same] at free
    split at free
    · exact free
    · exact free
  have honestNow : (state.refreshed interval question.2).Honest
      (state.refreshed interval question.2).session.settings.family condensation := by
    unfold Honest
    rw [decided_refreshed, earlier.settings]
    exact honest
  obtain ⟨later, positive⟩ := decision.honest built (earlier.valid valid)
    (earlier.grammars ▸ within) freeNow honestNow
  rw [earlier.settings] at later positive
  rw [same]
  split
  · refine ⟨later, fun path walk => ?_⟩
    rw [Std.TreeSet.mem_insert, Std.LawfulEqOrd.compare_eq_iff_eq]
    exact Or.inl rfl
  · rename_i negative
    exact ⟨later, fun path walk => absurd (positive path walk) negative⟩

end Question

/-! ## All questions -/

section Questions

variable {condensation : Condensation} {interval : Nat} {state : Inquiry}
  {questions : List (Span × Nat)}

theorem precedes_questions :
    state.session.Precedes (questions.foldl (ask condensation interval) state).session := by
  induction questions generalizing state with
  | nil => exact .refl _
  | cons question questions induction => exact precedes_ask.trans induction

private theorem confirmed_subset_questions {span : Span} (member : span ∈ state.confirmed) :
    span ∈ (questions.foldl (ask condensation interval) state).confirmed := by
  induction questions generalizing state with
  | nil => exact member
  | cons question questions induction => exact induction (mem_confirmed_ask.1 member)

private theorem mem_of_confirmed_questions {span : Span}
    (member : span ∈ (questions.foldl (ask condensation interval) state).confirmed) :
    span ∈ state.confirmed ∨ span ∈ questions.map Prod.fst := by
  induction questions generalizing state with
  | nil => exact Or.inl member
  | cons question questions induction =>
      rw [List.map_cons, List.mem_cons]
      rcases induction member with early | later
      · exact (mem_confirmed_ask.2 early).imp_right Or.inl
      · exact Or.inr (Or.inr later)

private theorem mem_confirmed_questions (built : condensation.graph.Built)
    (valid : state.session.Valid) (within : state.session.grammars.WithinWord)
    (free : CollisionFree (questions.foldl (ask condensation interval) state).session.asked)
    (honest : state.Honest state.session.settings.family condensation) {span : Span}
    {path : List Edge} (asked : span ∈ questions.map Prod.fst)
    (walk : BalancedWalk state.session.settings.family condensation.graph
      (condensation.lift span) path) :
    span ∈ (questions.foldl (ask condensation interval) state).confirmed := by
  induction questions generalizing state with
  | nil => simp at asked
  | cons question questions induction =>
      have step := @precedes_ask condensation interval state question
      have freeNow := free.mono (@precedes_questions condensation interval
        (state.ask condensation interval question) questions).asked
      obtain ⟨honestLater, confirmed⟩ := honest_ask built valid within freeNow honest
      rw [List.map_cons, List.mem_cons] at asked
      rcases asked with rfl | later
      · exact @confirmed_subset_questions condensation interval
          (state.ask condensation interval question) questions _ (confirmed path walk)
      · rw [← step.settings] at honestLater walk
        exact induction (step.valid valid) (step.grammars ▸ within) free honestLater later walk

end Questions

theorem mem_queue {condensation : Condensation} {spans : List Span} {span : Span} :
    span ∈ queue condensation spans ↔ span ∈ spans := by
  unfold queue
  simp only [List.mem_append, List.mem_filter, beq_iff_eq, bne_iff_ne]
  tauto

end Inquiry

/-! ## The last stage -/

theorem SpanSet.mem_missing {first second : SpanSet} {span : Span} :
    span ∈ first.missing second ↔ span ∈ first ∧ span ∉ second := by
  rw [missing, List.mem_filter, Std.TreeSet.mem_toList, Bool.not_eq_true',
    ← Bool.not_eq_true, Std.TreeSet.contains_iff_mem]

theorem SpanSet.mem_common {first second : SpanSet} {span : Span} :
    span ∈ first.common second ↔ span ∈ first ∧ span ∈ second := by
  simp [common]

namespace Session

section OnDemand

variable {session : Session} {graph : Graph} {under upper : SpanSet} {span : Span}

/-- The questions of the last stage, in the order in which they are asked. -/
def questions (condensation : Condensation) (under upper : SpanSet) :
    List (Span × Nat) :=
  (Inquiry.queue condensation (SpanSet.missing upper under)).zipIdx

private theorem mem_questions {condensation : Condensation} :
    span ∈ (questions condensation under upper).map Prod.fst ↔ span ∈ upper ∧ span ∉ under := by
  rw [questions, List.zipIdx_map_fst, Inquiry.mem_queue, SpanSet.mem_missing]

/-- The state after all questions. -/
def inquired (session : Session) (condensation : Condensation)
    (under upper : SpanSet) : Inquiry :=
  (questions condensation under upper).foldl
    (Inquiry.ask condensation (max session.settings.cacheClearInterval 1))
    { session, confirmed := under }

theorem onDemand_eq (session : Session) (graph : Graph) (under upper : SpanSet) :
    session.onDemand graph under upper =
      ((session.inquired (.ofKnown graph under) under upper).confirmed,
        (session.inquired (.ofKnown graph under) under upper).session) :=
  rfl

theorem precedes_onDemand (session : Session) (graph : Graph) (under upper : SpanSet) :
    session.Precedes (session.onDemand graph under upper).2 := by
  rw [onDemand_eq]
  exact @Inquiry.precedes_questions _ _ { session, confirmed := under } _

theorem mem_onDemand_of_under (member : span ∈ under) :
    span ∈ (session.onDemand graph under upper).1 := by
  rw [onDemand_eq]
  exact Inquiry.confirmed_subset_questions member

theorem mem_of_onDemand (member : span ∈ (session.onDemand graph under upper).1) :
    span ∈ under ∨ span ∈ upper := by
  rw [onDemand_eq] at member
  exact (Inquiry.mem_of_confirmed_questions member).imp_right
    fun asked => (mem_questions.mp asked).1

/-- A balanced walk is confirmed when its span is asked for. -/
theorem mem_onDemand (valid : session.Valid) (within : session.grammars.WithinWord)
    (free : CollisionFree (session.onDemand graph under upper).2.asked) {path : List Edge}
    (walk : BalancedWalk session.settings.family graph span path) (member : span ∈ upper) :
    span ∈ (session.onDemand graph under upper).1 := by
  by_cases known : span ∈ under
  · exact mem_onDemand_of_under known
  · have covers := Condensation.covers_ofKnown graph under
    rw [onDemand_eq] at free ⊢
    generalize Condensation.ofKnown graph under = condensation at covers free ⊢
    have honest : Inquiry.Honest session.settings.family condensation
        { session, confirmed := under } := by
      intro other path _
      simp
    exact Inquiry.mem_confirmed_questions covers.built valid within free honest
      (mem_questions.mpr ⟨member, known⟩) (covers.lift_walk walk)

end OnDemand

end Session

end GrammarReach
