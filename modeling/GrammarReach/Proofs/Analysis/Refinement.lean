import GrammarReach.Proofs.Analysis.RefinementRuns

/-!
# Mutual refinement

Within a machine word refinement keeps the edges of every balanced walk through all rounds
until it answers the span of the walk, and every answer is confirmed in the input.
-/

namespace GrammarReach

namespace Refinement

section Walks

variable {target : Option Span} {graph : Graph}

theorem walk_relevantParts (built : graph.Built) {span : Span} {path : List Edge}
    (joins : Joins span.start path span.stop)
    (inside : ∀ edge ∈ path, edge ∈ graph.labelledEdges) (some : path ≠ [])
    (fits : Fits target span) :
    (∃ part ∈ relevantParts target graph, ∀ edge ∈ path, edge ∈ part.labelledEdges) ∧
      (target.isSome = true → ∀ part ∈ relevantParts target graph,
        ∀ edge ∈ path, edge ∈ part.labelledEdges) := by
  have start : span.start ∈ graph.vertices := by
    cases path with
    | nil => exact absurd rfl some
    | cons edge path =>
        rw [← joins.1]
        exact built.closed.source_mem edge
          (Graph.mem_labelledEdges.mp (inside edge (by simp))).1
  obtain ⟨piece, isPiece, inPiece⟩ := Graph.exists_piece built start
  cases target with
  | none =>
      refine ⟨⟨piece, List.mem_filterMap.mpr ⟨piece, isPiece, rfl⟩, ?_⟩, by simp⟩
      exact (Graph.mem_piece_of_joins built isPiece joins inside inPiece).1
  | some asked =>
      cases fits asked rfl
      have held : ∀ piece ∈ graph.pieces, span.start ∈ piece.vertices →
          (∀ edge ∈ path, edge ∈ (piece.restrictTo [span]).labelledEdges) ∧
            span.stop ∈ piece.vertices := by
        intro piece isPiece inPiece
        obtain ⟨held, stop⟩ := Graph.mem_piece_of_joins built isPiece joins inside inPiece
        exact ⟨Graph.mem_restrictTo_of_joins (Graph.built_of_mem_pieces isPiece)
          (List.mem_singleton.mpr rfl) joins held, stop⟩
      constructor
      · obtain ⟨walk, stop⟩ := held piece isPiece inPiece
        refine ⟨_, List.mem_filterMap.mpr ⟨piece, isPiece, ?_⟩, walk⟩
        simp [relevantPart, Graph.containsVertex, inPiece, stop]
      · intro _ part member
        obtain ⟨piece, isPiece, relevant⟩ := List.mem_filterMap.mp member
        simp only [relevantPart, Option.ite_none_right_eq_some] at relevant
        obtain ⟨contains, same⟩ := relevant
        cases same
        have first := (Bool.and_eq_true_iff.mp contains).1
        exact (held piece isPiece (by simpa [Graph.containsVertex] using first)).1

theorem retaining_walk {settings : Settings} {input : Graph} {span : Span} {path : List Edge}
    (walk : BalancedWalk settings.family input span path)
    (irreflexive : span.isReflexive = false) (fits : Fits target span) :
    Retaining target
      (fun session => session.Valid ∧ session.grammars.WithinWord ∧ session.settings = settings)
      span fun graph => ∀ edge ∈ path, edge ∈ graph.labelledEdges where
  session := fun ⟨valid, within, same⟩ run =>
    ⟨run.precedes.valid valid, run.precedes.grammars ▸ within,
      run.precedes.settings.trans same⟩
  contained := by
    intro graph built inside
    have some := walk.ne_nil irreflexive
    cases target with
    | none => rfl
    | some asked =>
        cases fits asked rfl
        have start := (walk.within inside).start_mem built some
        have stop := (walk.within inside).stop_mem built some
        simp [Graph.containsTarget, Graph.containsVertex, start, stop]
  relevant := fun built inside =>
    walk_relevantParts built walk.joins inside (walk.ne_nil irreflexive) fits
  nontrivial := by
    intro part built inside
    obtain ⟨edge, onPath⟩ := List.exists_mem_of_ne_nil path (walk.ne_nil irreflexive)
    exact built.isTrivial_of_labelled (inside edge onPath)
  round := by
    rintro session piece outcome ⟨valid, within, rfl⟩ _ inside run free
    exact run.keeps valid within free (walk.within inside) irreflexive fits

theorem course_confirmed (settings : Settings) (target : Option Span) (input : Graph) :
    Course target (fun session => session.Valid ∧ session.settings = settings)
      (fun graph => ∀ edge ∈ graph.labelledEdges, edge ∈ input.labelledEdges)
      (fun part => ∀ edge ∈ part.labelledEdges, edge ∈ input.labelledEdges)
      (Confirmed settings target input) where
  session := fun ⟨valid, same⟩ run =>
    ⟨run.precedes.valid valid, run.precedes.settings.trans same⟩
  relevant := fun sub _ member edge inPart => sub edge (sub_relevantParts member edge inPart)
  round := by
    rintro session piece outcome ⟨valid, rfl⟩ sub run free
    exact (run.sound valid free).imp (fun _ left edge member => sub edge (left edge member))
      fun _ confirmed => confirmed.mono sub

end Walks

end Refinement

namespace Session

/-- The sessions that come about by switching modes, forgetting results, solving
components and refining graphs. -/
inductive Reachable (settings : Settings) : Session → Prop where
  | fresh : Reachable settings (ofSettings settings)
  | clearMemo {session : Session} : Reachable settings session →
      Reachable settings session.clearMemo
  | setMode {session : Session} (mode : GrammarMode) : Reachable settings session →
      Reachable settings (session.setMode mode)
  | solve {session : Session} (side : RefiningSide) {component : BracketComponent} :
      component.Proper → Reachable settings session →
      Reachable settings (session.solve side component).2
  | mutualRefinement {session : Session} (graph : Graph) (target : Option Span) :
      Reachable settings session →
      Reachable settings (session.mutualRefinement graph target).2

theorem Reachable.valid {settings : Settings} {session : Session}
    (reachable : session.Reachable settings) :
    session.Valid ∧ session.settings = settings := by
  have later : ∀ {earlier later : Session}, earlier.Before later →
      earlier.Valid ∧ earlier.settings = settings → later.Valid ∧ later.settings = settings :=
    fun before ⟨valid, same⟩ => ⟨before.valid valid, before.settings.trans same⟩
  induction reachable with
  | fresh => exact ⟨valid_ofSettings settings, rfl⟩
  | clearMemo _ induction => exact later (precedes_clearMemo _).toBefore induction
  | setMode mode _ induction => exact later (before_setMode _ mode) induction
  | solve side proper _ induction =>
      exact later (precedes_solve _ side proper).toBefore induction
  | mutualRefinement graph target _ induction =>
      exact later (precedes_mutualRefinement _ graph target).toBefore induction

section MutualRefinement

variable {session : Session} {graph : Graph} {target : Option Span}

theorem mem_mutualRefinement (valid : session.Valid) (within : session.grammars.WithinWord)
    (built : graph.Built)
    (free : CollisionFree (session.mutualRefinement graph target).2.asked) {span : Span}
    {path : List Edge} (walk : BalancedWalk session.settings.family graph span path)
    (irreflexive : span.isReflexive = false) (fits : Fits target span) :
    span ∈ (session.mutualRefinement graph target).1 :=
  (Refinement.retaining_walk walk irreflexive fits).mem_mutualRefinement ⟨valid, within, rfl⟩
    built walk.inside free

theorem confirmed_of_mutualRefinement (valid : session.Valid)
    (free : CollisionFree (session.mutualRefinement graph target).2.asked) {span : Span}
    (member : span ∈ (session.mutualRefinement graph target).1) :
    Confirmed session.settings target graph span :=
  (Refinement.course_confirmed session.settings target graph).answer_of_mem ⟨valid, rfl⟩
    (fun _ => id) free member

end MutualRefinement

/-- Refinement answers nothing but confirmed spans, and every balanced walk as long as the
classes of the augmented grammar fit into a machine word. -/
theorem mutualRefinement_between {settings : Settings} {session : Session}
    (reachable : session.Reachable settings) {graph : Graph} (built : graph.Built)
    (target : Option Span)
    (free : CollisionFree (session.mutualRefinement graph target).2.asked) :
    (session.grammars.WithinWord → ∀ span path, BalancedWalk settings.family graph span path →
      span.start ≠ span.stop → target = none ∨ target = some span →
        span ∈ (session.mutualRefinement graph target).1) ∧
    (∀ span ∈ (session.mutualRefinement graph target).1,
      span.start ≠ span.stop ∧ (∀ wanted, target = some wanted → span = wanted) ∧
      (∃ path, NestedWalk settings.alphaFamily graph span path) ∧
      (∃ path, NestedWalk settings.alphaFamily.other graph span path) ∧
      (settings.family = .valueFlow → ∃ path, WrappedWalk graph span path)) := by
  obtain ⟨valid, rfl⟩ := reachable.valid
  constructor
  · intro within span path walk different asked
    have irreflexive : span.isReflexive = false := by simpa [Span.isReflexive] using different
    apply mem_mutualRefinement valid within built free walk irreflexive
    intro wanted same
    rcases asked with none | some
    · rw [none] at same
      cases same
    · rw [some] at same
      exact Option.some.inj same
  · intro span member
    have confirmed := confirmed_of_mutualRefinement valid free member
    have different : span.start ≠ span.stop := by
      simpa [Span.isReflexive] using confirmed.irreflexive
    exact ⟨different, confirmed.fits, confirmed.alpha, confirmed.beta, confirmed.wrapped⟩

/-- A walk along which the brackets of the two families cross. -/
def crossingPath : List Edge :=
  [⟨0, 1, BracketFamily.parenthesis.openLabel 0⟩, ⟨1, 2, BracketFamily.bracket.openLabel 1⟩,
    ⟨2, 3, BracketFamily.parenthesis.closeLabel 0⟩, ⟨3, 4, BracketFamily.bracket.closeLabel 1⟩]

theorem balancedWalk_crossingPath :
    BalancedWalk .taint (.ofEdges crossingPath) ⟨0, 4⟩ crossingPath := by
  refine ⟨⟨⟨rfl, rfl, rfl, rfl, rfl⟩, by decide +kernel, ?_⟩, ?_, fun flow => by cases flow⟩
  · intro label member
    simp only [crossingPath, wordOf, List.map_cons, List.map_nil, List.mem_cons,
      List.not_mem_nil, or_false] at member
    rcases member with rfl | rfl | rfl | rfl
    · exact .opening .parenthesis (by decide)
    · exact .opening .bracket (by decide)
    · exact .closing .parenthesis (by decide)
    · exact .closing .bracket (by decide)
  · intro family
    cases family with
    | parenthesis =>
        have kept : BracketFamily.parenthesis.only (wordOf crossingPath) =
            [BracketFamily.parenthesis.openLabel 0, BracketFamily.parenthesis.closeLabel 0] := by
          decide +kernel
        rw [kept]
        exact .wrap 0 .nil .nil
    | bracket =>
        have kept : BracketFamily.bracket.only (wordOf crossingPath) =
            [BracketFamily.bracket.openLabel 1, BracketFamily.bracket.closeLabel 1] := by
          decide +kernel
        rw [kept]
        exact .wrap 1 .nil .nil

theorem collisionFree_crossingPath (alpha : BracketFamily) :
    CollisionFree ((ofSettings { alphaFamily := alpha }).mutualRefinement
      (.ofEdges crossingPath) none).2.asked := by
  cases alpha with
  | parenthesis => decide +kernel
  | bracket => decide +kernel

/-- Crossing brackets are answered although no single stack matches them. -/
theorem mutualRefinement_between_crossing :
    CollisionFree ((ofSettings {}).mutualRefinement (.ofEdges crossingPath) none).2.asked ∧
      ⟨0, 4⟩ ∈ ((ofSettings {}).mutualRefinement (.ofEdges crossingPath) none).1 := by
  have free := collisionFree_crossingPath .parenthesis
  refine ⟨free, ?_⟩
  exact (mutualRefinement_between .fresh (Graph.built_ofEdges crossingPath) none free).1
    (fun _ => by decide) ⟨0, 4⟩ crossingPath balancedWalk_crossingPath (by decide) (Or.inl rfl)

end Session

end GrammarReach
