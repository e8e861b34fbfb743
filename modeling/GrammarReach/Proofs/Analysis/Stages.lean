import GrammarReach.Proofs.Analysis.Approximation
import GrammarReach.Proofs.Analysis.Questions

/-!
# The staged analysis

A balanced walk of the input passes the classic stages, and all stages when the classes of
the parity grammar fit into a machine word: its edges are in every graph that a stage hands
on, and its span is among the answers.  So for taint the lower bound, which only knows
balanced walks, stays below all these stages.
-/

namespace GrammarReach

/-- How the stages of every analysis lie within each other: the last stage has the lower
bound and nothing else beyond the stage before. -/
structure StageResults.Chained (results : StageResults) : Prop where
  lower : ∀ span ∈ results.underApproximation, span ∈ results.onDemand
  asked : ∀ span ∈ results.onDemand,
    span ∈ results.underApproximation ∨ span ∈ results.augmented
  augmented : ∀ span ∈ results.augmented, span ∈ results.classic
  classic : ∀ span ∈ results.classic, span ∈ results.intersection

/-- Every stage lies within the one before, the lower bound within all of them. -/
structure StageResults.Monotone (results : StageResults) : Prop where
  lower : ∀ span ∈ results.underApproximation, span ∈ results.onDemand
  asked : ∀ span ∈ results.onDemand, span ∈ results.augmented
  augmented : ∀ span ∈ results.augmented, span ∈ results.classic
  classic : ∀ span ∈ results.classic, span ∈ results.intersection

theorem StageResults.Chained.monotone_iff {results : StageResults}
    (chained : results.Chained) :
    results.Monotone ↔ ∀ span ∈ results.underApproximation, span ∈ results.augmented := by
  constructor
  · exact fun monotone span member => monotone.asked span (monotone.lower span member)
  · intro within
    refine ⟨chained.lower, fun span member => ?_, chained.augmented, chained.classic⟩
    exact (chained.asked span member).elim (within span) id

/-! ## Shrinking -/

section Shrinking

variable {graph : Graph} {spans : SpanSet}

theorem Graph.labelledEdges_of_shrinkTo {edge : Edge}
    (member : edge ∈ (graph.shrinkTo spans).labelledEdges) : edge ∈ graph.labelledEdges :=
  labelledEdges_of_restrictTo (mem_labelledEdges_matchedBrackets.mp member).1

theorem Graph.built_shrinkTo (graph : Graph) (spans : SpanSet) : (graph.shrinkTo spans).Built :=
  (proper_matchedBrackets _).built

theorem BalancedWalk.shrinkTo {analysis : AnalysisFamily} {span : Span} {path : List Edge}
    (walk : BalancedWalk analysis graph span path) (built : graph.Built)
    (member : span ∈ spans) : BalancedWalk analysis (graph.shrinkTo spans) span path := by
  have target : span ∈ spans.toList := Std.TreeSet.mem_toList.mpr member
  have restricted : BalancedWalk analysis (graph.restrictTo spans.toList) span path :=
    walk.within (Graph.mem_restrictTo_of_joins built target walk.joins walk.inside)
  exact restricted.matchedBrackets

end Shrinking

namespace Session

/-! ## One refining stage -/

section Stage

/-- A refining stage: mutual refinement in a mode without memory, cut down to an upper
bound. -/
inductive StageRun (session : Session) (mode : GrammarMode) (graph : Graph)
    (under upper : SpanSet) : SpanSet × Session → Prop where
  | refined {found : SpanSet} {later : Session} :
      (session.clearMemo.setMode mode).refineCondensed graph under = (found, later) →
      StageRun session mode graph under upper (SpanSet.common found upper, later)

variable {session : Session} {mode : GrammarMode} {graph : Graph} {under upper : SpanSet}
  {outcome : SpanSet × Session}

theorem before_setUp (session : Session) (mode : GrammarMode) :
    session.Before (session.clearMemo.setMode mode) :=
  session.precedes_clearMemo.toBefore.trans (before_setMode _ mode)

theorem grammars_setUp (session : Session) (mode : GrammarMode) :
    (session.clearMemo.setMode mode).grammars = session.settings.grammars mode := by
  rw [grammars, mode_setMode, (before_setUp session mode).settings]

theorem valid_setUp (session : Session) (mode : GrammarMode) :
    (session.clearMemo.setMode mode).Valid := by
  apply (before_setMode _ mode).valid
  intro side key result found
  cases side <;> simp [memo, clearMemo] at found

theorem StageRun.later (run : StageRun session mode graph under upper outcome) :
    session.Before outcome.2 ∧ outcome.2.Valid := by
  cases run with
  | refined refines =>
      have step := (session.clearMemo.setMode mode).precedes_refineCondensed graph under
      rw [refines] at step
      exact ⟨(before_setUp session mode).trans step.toBefore,
        step.valid (valid_setUp session mode)⟩

private theorem StageRun.mem_upper (run : StageRun session mode graph under upper outcome)
    {span : Span} (member : span ∈ outcome.1) : span ∈ upper := by
  cases run with
  | refined => exact (SpanSet.mem_common.mp member).2

private theorem StageRun.mem (run : StageRun session mode graph under upper outcome)
    (within : (session.settings.grammars mode).WithinWord)
    (free : CollisionFree outcome.2.asked) {span : Span} {path : List Edge}
    (walk : BalancedWalk session.settings.family graph span path)
    (irreflexive : span.isReflexive = false) (member : span ∈ upper) : span ∈ outcome.1 := by
  cases run with
  | refined refines =>
      rw [← (before_setUp session mode).settings] at walk
      rw [← grammars_setUp] at within
      have answered := @mem_refineCondensed _ graph under (valid_setUp session mode) within
      rw [refines] at answered
      exact SpanSet.mem_common.mpr ⟨answered free walk irreflexive, member⟩

end Stage

/-! ## The graph at the start -/

section Prepared

variable {settings : Settings} {input : Graph}

theorem built_prepared (built : input.Built) : (prepared settings input).Built := by
  unfold prepared
  cases settings.family with
  | taint => exact built
  | valueFlow => exact input.built_keepFlows

theorem loopsOnly_prepared (flow : settings.family = .valueFlow) :
    (prepared settings input).LoopsOnly := by
  unfold prepared
  rw [flow]
  exact input.loopsOnly_keepFlows

theorem labelledEdges_of_prepared {edge : Edge}
    (member : edge ∈ (prepared settings input).labelledEdges) : edge ∈ input.labelledEdges := by
  unfold prepared at member
  cases family : settings.family with
  | taint =>
      rw [family] at member
      exact member
  | valueFlow =>
      rw [family] at member
      exact Graph.labelledEdges_of_keepFlows member

theorem walk_prepared {span : Span} {path : List Edge}
    (walk : BalancedWalk settings.family input span path) (built : input.Built) :
    BalancedWalk settings.family (prepared settings input) span path := by
  unfold Session.prepared
  cases family : settings.family with
  | taint =>
      rw [family] at walk
      exact walk
  | valueFlow =>
      rw [family] at walk
      exact walk.within
        (Graph.mem_keepFlows_of_wrapped built ⟨walk.toCanonicalWalk, walk.wrapped⟩)

end Prepared

/-! ## The whole analysis -/

/-- How an analysis goes: two refining stages on ever smaller graphs, and then the
questions that are left. -/
inductive AnalysisRun (session : Session) (input : Graph) :
    StageResults × Session → Prop where
  | stages {graph narrowed : Graph} {regularization upper under classic augmented : SpanSet}
      {onDemand : SpanSet} {first second last : Session} :
      prepared session.settings input = graph →
      Approximation.intersection session.settings graph = upper →
      graph.shrinkTo upper = narrowed →
      Approximation.underApproximation session.settings narrowed = under →
      StageRun session .classic narrowed under upper (classic, first) →
      StageRun first .augmented (narrowed.shrinkTo classic) under classic (augmented, second) →
      second.onDemand ((narrowed.shrinkTo classic).shrinkTo augmented) under augmented =
        (onDemand, last) →
      AnalysisRun session input
        (⟨regularization, upper, under, classic, augmented, onDemand⟩, last)

theorem analysisRun_analyze (session : Session) (input : Graph) :
    AnalysisRun session input (session.analyze input) := by
  unfold analyze
  simp only
  generalize start : prepared session.settings input = graph
  generalize upperEq : Approximation.intersection session.settings graph = upper
  generalize narrowedEq : graph.shrinkTo upper = narrowed
  generalize underEq : Approximation.underApproximation session.settings narrowed = under
  generalize Approximation.regularization session.settings graph = regularization
  cases classicEq : (session.clearMemo.setMode .classic).refineCondensed narrowed under with
  | mk refined first =>
      have classicRun := @StageRun.refined session _ _ _ upper _ _ classicEq
      simp only
      generalize SpanSet.common refined upper = classic at classicRun
      cases augmentedEq : (first.clearMemo.setMode .augmented).refineCondensed
          (narrowed.shrinkTo classic) under with
      | mk refinedMore second =>
          have augmentedRun := @StageRun.refined first _ _ _ classic _ _ augmentedEq
          simp only
          generalize SpanSet.common refinedMore classic = augmented at augmentedRun
          exact .stages start upperEq narrowedEq underEq classicRun augmentedRun rfl

section AnalysisRun

variable {session : Session} {input : Graph} {outcome : StageResults × Session} {span : Span}

private theorem AnalysisRun.bounds (run : AnalysisRun session input outcome)
    {settings : Settings} (same : session.settings = settings) :
    outcome.1.intersection = Approximation.intersection settings (prepared settings input) ∧
      outcome.1.underApproximation = Approximation.underApproximation settings
        ((prepared settings input).shrinkTo
          (Approximation.intersection settings (prepared settings input))) := by
  cases run with
  | stages start upperEq narrowedEq underEq _ _ _ =>
      subst same start upperEq narrowedEq underEq
      exact ⟨rfl, rfl⟩

private theorem AnalysisRun.chained (run : AnalysisRun session input outcome) :
    outcome.1.Chained := by
  cases run with
  | stages _ _ _ _ classicRun augmentedRun asked =>
      have confirmed := congrArg Prod.fst asked
      simp only at confirmed
      refine ⟨fun span member => ?_, fun span member => ?_, fun span => augmentedRun.mem_upper,
        fun span => classicRun.mem_upper⟩
      · simp only at member ⊢
        rw [← confirmed]
        exact mem_onDemand_of_under member
      · simp only at member ⊢
        rw [← confirmed] at member
        exact mem_of_onDemand member

private theorem AnalysisRun.answers (run : AnalysisRun session input outcome)
    (built : input.Built) (free : CollisionFree outcome.2.asked) {path : List Edge}
    (walk : BalancedWalk session.settings.family input span path)
    (irreflexive : span.isReflexive = false) :
    (span ∈ outcome.1.intersection ∧ span ∈ outcome.1.classic) ∧
      (session.settings.parityClasses < Text.wordBits →
        span ∈ outcome.1.augmented ∧ span ∈ outcome.1.onDemand) := by
  cases run with
  | @stages graph narrowed _ upper under classic augmented _ first second _ start upperEq
      narrowedEq _ classicRun augmentedRun asked =>
      have questions := second.precedes_onDemand
        ((narrowed.shrinkTo classic).shrinkTo augmented) under augmented
      rw [asked] at questions
      have freeSecond := free.mono questions.asked
      have freeFirst := freeSecond.mono augmentedRun.later.1.asked
      have startWalk := walk_prepared walk built
      have startBuilt := @built_prepared session.settings input built
      rw [start] at startWalk startBuilt
      have inUpper : span ∈ upper := by
        rw [← upperEq]
        refine Approximation.mem_intersection_of_walk startBuilt (fun flow => ?_) startWalk
          irreflexive
        rw [← start]
        exact loopsOnly_prepared flow
      have narrowedBuilt : narrowed.Built := narrowedEq ▸ graph.built_shrinkTo upper
      have narrowedWalk := startWalk.shrinkTo startBuilt inUpper
      rw [narrowedEq] at narrowedWalk
      have inClassic : span ∈ classic :=
        classicRun.mem (fun augmented => nomatch augmented) freeFirst narrowedWalk irreflexive
          inUpper
      refine ⟨⟨inUpper, inClassic⟩, fun within => ?_⟩
      have classicWalk := narrowedWalk.shrinkTo narrowedBuilt inClassic
      rw [← classicRun.later.1.settings] at classicWalk within
      have inAugmented : span ∈ augmented :=
        augmentedRun.mem (fun _ => within) freeSecond classicWalk irreflexive inClassic
      have augmentedWalk :=
        classicWalk.shrinkTo (narrowed.built_shrinkTo classic) inAugmented
      rw [← augmentedRun.later.1.settings] at augmentedWalk within
      have confirmed := @mem_onDemand second ((narrowed.shrinkTo classic).shrinkTo augmented)
        under augmented span augmentedRun.later.2 fun _ => within
      rw [asked] at confirmed
      exact ⟨inAugmented, confirmed free augmentedWalk inAugmented⟩

private theorem labelledEdges_of_narrowed {settings : Settings} {spans : SpanSet} {edge : Edge}
    (member : edge ∈ ((prepared settings input).shrinkTo spans).labelledEdges) :
    edge ∈ input.labelledEdges :=
  labelledEdges_of_prepared (Graph.labelledEdges_of_shrinkTo member)

private theorem AnalysisRun.exists_walk (run : AnalysisRun session input outcome)
    (taint : session.settings.family = .taint) (member : span ∈ outcome.1.underApproximation) :
    span.isReflexive = false ∧
      ∃ path, BalancedWalk session.settings.family input span path := by
  rw [(run.bounds rfl).2] at member
  obtain ⟨irreflexive, path, walk⟩ :=
    Approximation.exists_walk_of_underApproximation taint member
  exact ⟨irreflexive, path, walk.within fun edge onPath =>
    labelledEdges_of_narrowed (walk.inside edge onPath)⟩

private theorem AnalysisRun.exists_flowWalk (run : AnalysisRun session input outcome)
    (flow : session.settings.family = .valueFlow)
    (member : span ∈ outcome.1.underApproximation) :
    span.isReflexive = false ∧ ∃ path, FlowWalk input span path := by
  rw [(run.bounds rfl).2] at member
  obtain ⟨irreflexive, path, walk⟩ :=
    Approximation.exists_flowWalk_of_underApproximation flow member
  exact ⟨irreflexive, path, walk.within fun edge onPath =>
    labelledEdges_of_narrowed (walk.inside edge onPath)⟩

private theorem AnalysisRun.exists_wrappedWalk (run : AnalysisRun session input outcome)
    (flow : session.settings.family = .valueFlow) (member : span ∈ outcome.1.intersection) :
    ∃ path, WrappedWalk input span path := by
  rw [(run.bounds rfl).1] at member
  have confirmed := Approximation.confirmed_of_intersection
    (fun _ => loopsOnly_prepared flow) member
  obtain ⟨path, walk⟩ := confirmed.wrapped flow
  exact ⟨path, walk.mono fun edge => labelledEdges_of_prepared⟩

end AnalysisRun

/-- A staged analysis answers every balanced walk of its input at the classic stages, and at
every stage when the classes of the parity grammar fit into a machine word.  Results are
forgotten first, so nothing is asked of the session. -/
theorem analyze_complete (session : Session) {input : Graph} (built : input.Built)
    (free : CollisionFree (session.analyze input).2.asked) {span : Span} {path : List Edge}
    (walk : BalancedWalk session.settings.family input span path)
    (different : span.start ≠ span.stop) :
    (span ∈ (session.analyze input).1.intersection ∧
        span ∈ (session.analyze input).1.classic) ∧
      (session.settings.parityClasses < Text.wordBits →
        span ∈ (session.analyze input).1.augmented ∧
          span ∈ (session.analyze input).1.onDemand) := by
  have irreflexive : span.isReflexive = false := by simpa [Span.isReflexive] using different
  exact (analysisRun_analyze session input).answers built free walk irreflexive

/-- The shortest value flow. -/
def flowPath : List Edge :=
  [⟨0, 1, BracketLanguage.wrapperOpen⟩, ⟨1, 2, BracketLanguage.wrapperClose⟩]

theorem balancedWalk_flowPath :
    BalancedWalk .valueFlow (.ofEdges flowPath) ⟨0, 2⟩ flowPath := by
  have opened : BracketLanguage.wrapperOpen = BracketFamily.bracket.openLabel 0 := rfl
  have closed : BracketLanguage.wrapperClose = BracketFamily.bracket.closeLabel 0 := rfl
  refine ⟨⟨⟨rfl, rfl, rfl⟩, by decide +kernel, ?_⟩, ?_, fun _ => ⟨rfl, rfl⟩⟩
  · intro label member
    simp only [flowPath, wordOf, List.map_cons, List.map_nil, List.mem_cons,
      List.not_mem_nil, or_false] at member
    rcases member with rfl | rfl
    · exact opened ▸ .opening .bracket (by decide)
    · exact closed ▸ .closing .bracket (by decide)
  · intro family
    cases family with
    | parenthesis =>
        have kept : BracketFamily.parenthesis.only (wordOf flowPath) = [] := by decide +kernel
        rw [kept]
        exact .nil
    | bracket =>
        have kept : BracketFamily.bracket.only (wordOf flowPath) =
            [BracketFamily.bracket.openLabel 0, BracketFamily.bracket.closeLabel 0] := by
          decide +kernel
        rw [kept]
        exact .wrap 0 .nil .nil

/-- A session for value flows that counts one class. -/
def flowSession : Session :=
  ofSettings { family := .valueFlow, parityClasses := 1 }

theorem collisionFree_flowPath :
    CollisionFree (flowSession.analyze (.ofEdges flowPath)).2.asked := by
  decide +kernel

/-- The shortest value flow is answered last. -/
theorem analyze_complete_flowPath :
    ⟨0, 2⟩ ∈ (flowSession.analyze (.ofEdges flowPath)).1.onDemand :=
  ((analyze_complete flowSession (Graph.built_ofEdges flowPath) collisionFree_flowPath
    balancedWalk_flowPath (by decide)).2 (by decide)).2

/-- The stages of a taint analysis are chained, the lower bound lies within the classic
stages, and all stages are monotone when the classes of the parity grammar fit into a
machine word. -/
theorem analyze_monotone_of_taint (session : Session)
    (taint : session.settings.family = .taint) {input : Graph} (built : input.Built)
    (free : CollisionFree (session.analyze input).2.asked) :
    (session.analyze input).1.Chained ∧
    (∀ span ∈ (session.analyze input).1.underApproximation,
      span ∈ (session.analyze input).1.classic) ∧
    (session.settings.parityClasses < Text.wordBits → (session.analyze input).1.Monotone) := by
  have run := analysisRun_analyze session input
  have answered : ∀ span ∈ (session.analyze input).1.underApproximation,
      span ∈ (session.analyze input).1.classic ∧
        (session.settings.parityClasses < Text.wordBits →
          span ∈ (session.analyze input).1.augmented) := by
    intro span known
    obtain ⟨irreflexive, path, walk⟩ := run.exists_walk taint known
    obtain ⟨⟨_, classic⟩, rest⟩ := run.answers built free walk irreflexive
    exact ⟨classic, fun within => (rest within).1⟩
  refine ⟨run.chained, fun span known => (answered span known).1, fun within => ?_⟩
  exact run.chained.monotone_iff.mpr fun span known => (answered span known).2 within

/-- The stages are monotone on a single pair of brackets. -/
theorem analyze_monotone_of_taint_flowPath :
    ((ofSettings { parityClasses := 1 }).analyze (.ofEdges flowPath)).1.Monotone :=
  (analyze_monotone_of_taint (ofSettings { parityClasses := 1 }) rfl
    (Graph.built_ofEdges flowPath) (by decide +kernel)).2.2 (by decide)

/-- The stages of a value flow analysis are monotone exactly if the lower bound lies within
the refined answers.  When the classes of the parity grammar fit into a machine word, they
are where the wrapper brackets are the only sources and sinks, and what the lower bound has
beyond them are flows between other brackets, which no balanced value flow joins.  The
intersection has wrapped walks only. -/
theorem analyze_monotone_iff_of_valueFlow (session : Session)
    (flow : session.settings.family = .valueFlow) {input : Graph} (built : input.Built)
    (free : CollisionFree (session.analyze input).2.asked) :
    (session.analyze input).1.Chained ∧
    ((session.analyze input).1.Monotone ↔
      ∀ span ∈ (session.analyze input).1.underApproximation,
        span ∈ (session.analyze input).1.augmented) ∧
    (session.settings.parityClasses < Text.wordBits → input.WrapperOnly →
      (session.analyze input).1.Monotone) ∧
    (∀ span ∈ (session.analyze input).1.underApproximation,
      ∃ path, FlowWalk input span path) ∧
    (session.settings.parityClasses < Text.wordBits →
      ∀ span ∈ (session.analyze input).1.underApproximation,
        span ∉ (session.analyze input).1.augmented →
          ∀ path, ¬BalancedWalk .valueFlow input span path) ∧
    (∀ span ∈ (session.analyze input).1.intersection,
      ∃ path, WrappedWalk input span path) := by
  have run := analysisRun_analyze session input
  have answered : session.settings.parityClasses < Text.wordBits →
      ∀ span ∈ (session.analyze input).1.underApproximation, ∀ path,
        BalancedWalk .valueFlow input span path →
          span ∈ (session.analyze input).1.augmented := by
    intro within span known path walk
    rw [← flow] at walk
    exact ((run.answers built free walk (run.exists_flowWalk flow known).1).2 within).1
  refine ⟨run.chained, run.chained.monotone_iff, fun within only => ?_,
    fun span known => (run.exists_flowWalk flow known).2,
    fun within span known missing path walk => missing (answered within span known path walk),
    fun span member => run.exists_wrappedWalk flow member⟩
  apply run.chained.monotone_iff.mpr
  intro span known
  obtain ⟨_, path, walk⟩ := run.exists_flowWalk flow known
  exact answered within span known path (walk.balanced only)

/-- The shortest value flow lies between wrapper brackets. -/
theorem analyze_monotone_iff_of_valueFlow_flowPath :
    (flowSession.analyze (.ofEdges flowPath)).1.Monotone := by
  have only : (Graph.ofEdges flowPath).WrapperOnly := by
    unfold Graph.WrapperOnly
    decide +kernel
  exact (analyze_monotone_iff_of_valueFlow flowSession rfl (Graph.built_ofEdges flowPath)
    collisionFree_flowPath).2.2.1 (by decide) only

/-- A flow between other brackets inside a value flow. -/
def nestedFlow : List Edge :=
  [⟨0, 1, BracketFamily.bracket.openLabel 0⟩, ⟨1, 2, BracketFamily.bracket.openLabel 1⟩,
    ⟨2, 3, BracketFamily.bracket.closeLabel 1⟩, ⟨3, 4, BracketFamily.bracket.closeLabel 0⟩]

/-- The inner flow is in the lower bound, but not in the intersection. -/
theorem not_monotone_nestedFlow :
    ¬((ofSettings { family := .valueFlow }).analyze (.ofEdges nestedFlow)).1.Monotone := by
  intro monotone
  have run := analysisRun_analyze (ofSettings { family := .valueFlow }) (.ofEdges nestedFlow)
  obtain ⟨upper, lower⟩ := @AnalysisRun.bounds _ _ _ run { family := .valueFlow } rfl
  have known : ⟨1, 3⟩ ∈ Approximation.underApproximation { family := .valueFlow }
      ((prepared { family := .valueFlow } (.ofEdges nestedFlow)).shrinkTo
        (Approximation.intersection { family := .valueFlow }
          (prepared { family := .valueFlow } (.ofEdges nestedFlow)))) := by
    decide +kernel
  have missing : ⟨1, 3⟩ ∉ Approximation.intersection { family := .valueFlow }
      (prepared { family := .valueFlow } (.ofEdges nestedFlow)) := by
    decide +kernel
  rw [← lower] at known
  rw [← upper] at missing
  have asked := monotone.asked _ (monotone.lower _ known)
  exact missing (monotone.classic _ (monotone.augmented _ asked))

end Session

end GrammarReach
