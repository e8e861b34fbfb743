import GrammarReach.Proofs.Analysis.Stages

/-!
# The bounds of an analysis

The stages before refinement are exact.  The intersection answers the spans that each
classic grammar, and for value flows the wrapper, has a walk for.  The lower bound of a
taint analysis answers the spans of interleaved walks of the whole input, although it only
sees what the intersection leaves, and the regularization answers them as well.
-/

namespace GrammarReach

namespace Session

variable {session : Session} {input : Graph} {span : Span}

/-! ## The stages before refinement -/

theorem regularization_analyze (session : Session) (input : Graph) :
    (session.analyze input).1.regularization =
      Approximation.regularization session.settings (prepared session.settings input) :=
  rfl

theorem intersection_analyze (session : Session) (input : Graph) :
    (session.analyze input).1.intersection =
      Approximation.intersection session.settings (prepared session.settings input) :=
  rfl

theorem underApproximation_analyze (session : Session) (input : Graph) :
    (session.analyze input).1.underApproximation =
      Approximation.underApproximation session.settings
        ((prepared session.settings input).shrinkTo (session.analyze input).1.intersection) :=
  rfl

theorem prepared_of_taint {settings : Settings} (taint : settings.family = .taint) :
    prepared settings input = input := by
  simp [prepared, taint]

/-! ## The intersection -/

/-- The intersection answers the spans between different vertices that have a walk nested
in each family, and in a value flow a wrapped walk.  On each piece the second grammar
answers the same among the answers of the first one as it would on the whole piece. -/
theorem mem_intersection_analyze (session : Session) {input : Graph} (built : input.Built)
    (span : Span) :
    (span ∈ (session.analyze input).1.intersection ↔
      span.start ≠ span.stop ∧
      (∃ path, NestedWalk session.settings.alphaFamily (prepared session.settings input) span
        path) ∧
      (∃ path, NestedWalk session.settings.alphaFamily.other (prepared session.settings input)
        span path) ∧
      (session.settings.family = .valueFlow →
        ∃ path, WrappedWalk (prepared session.settings input) span path)) ∧
    ∀ piece ∈ (prepared session.settings input).activePieces, span.start ≠ span.stop →
      span ∈ (Approximation.intersectPiece session.settings piece).alpha →
        (span ∈ (Approximation.intersectPiece session.settings piece).beta ↔
          span ∈ piece.allBrackets.graph.spansOf
            ((session.settings.grammars .classic).beta piece.allBrackets.ids)) := by
  constructor
  · rw [intersection_analyze, Approximation.mem_intersection_iff (built_prepared built)
      (fun flow => loopsOnly_prepared flow)]
    constructor
    · intro confirmed
      exact ⟨Span.irreflexive_iff.mp confirmed.irreflexive, confirmed.alpha, confirmed.beta,
        confirmed.wrapped⟩
    · rintro ⟨different, alpha, beta, wrapped⟩
      exact ⟨Span.irreflexive_iff.mpr different, (fun _ missing => nomatch missing), alpha, beta,
        wrapped⟩
  · intro piece _ different alpha
    have irreflexive := Span.irreflexive_iff.mpr different
    rw [Approximation.mem_beta_intersectPiece irreflexive alpha]
    exact (Graph.mem_spansOf_allBrackets rfl irreflexive).symm

/-- The crossing walk is in the intersection. -/
theorem mem_intersection_analyze_crossing :
    ⟨0, 4⟩ ∈ ((ofSettings {}).analyze (.ofEdges crossingPath)).1.intersection := by
  have walk := balancedWalk_crossingPath
  exact (mem_intersection_analyze (ofSettings {}) (Graph.built_ofEdges crossingPath)
    ⟨0, 4⟩).1.mpr ⟨by decide, ⟨_, walk.toCanonicalWalk, walk.nested _⟩,
      ⟨_, walk.toCanonicalWalk, walk.nested _⟩, fun flow => by cases flow⟩

/-! ## The lower bound -/

theorem exists_interleavedWalk_of_analyze (taint : session.settings.family = .taint)
    (member : span ∈ (session.analyze input).1.underApproximation) :
    span.start ≠ span.stop ∧ ∃ path, InterleavedWalk input span path := by
  rw [underApproximation_analyze, prepared_of_taint taint] at member
  obtain ⟨irreflexive, path, walk⟩ :=
    (Approximation.mem_underApproximation_of_taint taint).mp member
  exact ⟨Span.irreflexive_iff.mp irreflexive, path, walk.within fun edge onPath =>
    Graph.labelledEdges_of_shrinkTo (walk.inside edge onPath)⟩

/-- An interleaved walk is balanced, so the intersection has its span and the graph that is
left has its edges. -/
theorem mem_underApproximation_of_interleavedWalk (taint : session.settings.family = .taint)
    (built : input.Built) {path : List Edge} (walk : InterleavedWalk input span path)
    (different : span.start ≠ span.stop) :
    span ∈ (session.analyze input).1.underApproximation := by
  have irreflexive := Span.irreflexive_iff.mpr different
  have balanced : BalancedWalk session.settings.family input span path := taint ▸ walk.balanced
  have answered : span ∈ (session.analyze input).1.intersection := by
    rw [intersection_analyze, prepared_of_taint taint]
    exact Approximation.mem_intersection_of_walk built
      (fun flow => by rw [taint] at flow; cases flow) balanced irreflexive
  rw [underApproximation_analyze, prepared_of_taint taint]
  exact (Approximation.mem_underApproximation_of_taint taint).mpr
    ⟨irreflexive, path, walk.within (balanced.shrinkTo built answered).inside⟩

/-- The lower bound of a taint analysis answers exactly the spans of interleaved walks of
the input between different vertices. -/
theorem mem_underApproximation_iff_interleaved (session : Session)
    (taint : session.settings.family = .taint) {input : Graph} (built : input.Built)
    (span : Span) :
    span ∈ (session.analyze input).1.underApproximation ↔
      span.start ≠ span.stop ∧ ∃ path, InterleavedWalk input span path := by
  constructor
  · exact exists_interleavedWalk_of_analyze taint
  · rintro ⟨different, path, walk⟩
    exact mem_underApproximation_of_interleavedWalk taint built walk different

private theorem interleavedWalk_flowPath :
    InterleavedWalk (.ofEdges flowPath) ⟨0, 2⟩ flowPath :=
  ⟨balancedWalk_flowPath.joins, balancedWalk_flowPath.inside, .pair .bracket (by decide)⟩

/-- A single pair of brackets is in the lower bound. -/
theorem mem_underApproximation_iff_interleaved_flowPath :
    ⟨0, 2⟩ ∈ ((ofSettings {}).analyze (.ofEdges flowPath)).1.underApproximation :=
  (mem_underApproximation_iff_interleaved (ofSettings {}) rfl (Graph.built_ofEdges flowPath)
    ⟨0, 2⟩).mpr ⟨by decide, flowPath, interleavedWalk_flowPath⟩

/-! ## The lower bound and the regularization -/

/-- The automaton that stands in for the second family accepts every word that is matched
in it, however deep, so the regularization has all of the lower bound. -/
theorem underApproximation_subset_regularization (session : Session)
    (taint : session.settings.family = .taint) {input : Graph} (built : input.Built) :
    ∀ span ∈ (session.analyze input).1.underApproximation,
      span ∈ (session.analyze input).1.regularization := by
  intro span member
  obtain ⟨different, path, walk⟩ := exists_interleavedWalk_of_analyze taint member
  rw [regularization_analyze, prepared_of_taint taint]
  exact Approximation.mem_regularization_of_walk taint built walk.balanced
    (Span.irreflexive_iff.mpr different)

/-- A single pair of brackets is in the regularization. -/
theorem underApproximation_subset_regularization_flowPath :
    ⟨0, 2⟩ ∈ ((ofSettings {}).analyze (.ofEdges flowPath)).1.regularization := by
  have built := Graph.built_ofEdges flowPath
  exact underApproximation_subset_regularization (ofSettings {}) rfl built ⟨0, 2⟩
    (mem_underApproximation_of_interleavedWalk rfl built interleavedWalk_flowPath (by decide))

end Session

end GrammarReach
