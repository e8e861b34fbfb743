import GrammarReach.Proofs.Saturation.Termination

/-!
# The edges that support answers

The provenance of a solved grammar leads from an answer to every labelled edge of
every derivation of that answer, whichever derivation was found first.
-/

namespace GrammarReach

namespace RunState

private theorem isSome_offer (components : Components) (state : RunState)
    (candidate : Candidate) :
    (offer components state candidate).provenance.isSome = state.provenance.isSome := by
  unfold offer
  split
  · simp
  · rfl

private theorem isSome_foldl_offer (components : Components) (candidates : List Candidate)
    (state : RunState) :
    (candidates.foldl (offer components) state).provenance.isSome =
      state.provenance.isSome := by
  induction candidates generalizing state with
  | nil => rfl
  | cons candidate candidates induction =>
      rw [List.foldl_cons, induction, isSome_offer]

private theorem isSome_taking (problem : Problem) (state : RunState)
    (derivation : Derivation) :
    (taking problem state derivation).provenance.isSome = state.provenance.isSome := by
  unfold taking noteAnswer
  split
  · split
    · simp
    · rfl
  · rfl

private theorem isSome_advance (problem : Problem) (state : RunState) :
    (state.advance problem).provenance.isSome = state.provenance.isSome := by
  cases found : state.table.derivation? state.taken with
  | none => simp [advance, found]
  | some derivation => rw [advance_eq found, isSome_foldl_offer, isSome_taking]

private theorem isSome_iterate (problem : Problem) (state : RunState) (steps : Nat) :
    ((advance problem)^[steps] state).provenance.isSome = state.provenance.isSome := by
  induction steps with
  | zero => rfl
  | succ steps induction => rw [Function.iterate_succ_apply', isSome_advance, induction]

end RunState

section Solve

variable {graph : Graph} {grammar : Grammar}

theorem exists_provenance_solve (ends : SolveEnds graph grammar {}) :
    ∃ provenance, (solve graph grammar {}).provenance = some provenance := by
  obtain ⟨_, steps, same⟩ := ends.exists_iterate Problem.countedSteps
  have recorded : (solvedState graph grammar {}).provenance.isSome = true := by
    rw [solvedState, same, RunState.isSome_iterate]
    exact RunState.isSome_foldl_offer _ _ _
  rw [provenance_solve]
  exact Option.isSome_iff_exists.mp recorded

variable {options : SolveOptions} {provenance : Provenance}

private theorem exists_origin_solve (built : graph.Built)
    (ends : SolveEnds graph grammar options)
    (known : (solve graph grammar options).provenance = some provenance)
    {span : Span} {used : List Edge}
    (derives : grammar.Derives graph Grammar.startName [span] used) {edge : Edge}
    (member : edge ∈ used) :
    ∃ id origin, provenance.root? span = some id ∧ provenance.GoesBackTo id origin ∧
      edge ∈ provenance.edges.row origin := by
  have represents := Program.represents_ofGrammar grammar
  obtain ⟨valid, finished⟩ := valid_solvedState built ends
  rw [provenance_solve] at known
  obtain ⟨id, numbered, problemDerives⟩ := derives.toProblem represents
  rw [represents.start] at numbered
  cases numbered
  obtain ⟨place, found, origins⟩ := valid.exists_of_derives finished problemDerives
  obtain ⟨origin, back, recorded⟩ := origins provenance known edge member
  have root : provenance.root? span = some place :=
    (valid.answers.roots provenance known span place).mpr
      ⟨RunState.lt_taken_of_finished finished found, found⟩
  exact ⟨place, origin, root, back, recorded⟩

theorem mem_supportingEdges_of_derives (built : graph.Built)
    (ends : SolveEnds graph grammar options)
    (known : (solve graph grammar options).provenance = some provenance)
    {targets : List Span} {span : Span} {used : List Edge}
    (derives : grammar.Derives graph Grammar.startName [span] used)
    (irreflexive : span.isReflexive = false) (target : span ∈ targets) {edge : Edge}
    (member : edge ∈ used) (labelled : edge.isEpsilon = false) :
    edge ∈ provenance.supportingEdges targets := by
  obtain ⟨id, origin, root, back, recorded⟩ :=
    exists_origin_solve built ends known derives member
  exact Provenance.mem_supportingEdges target irreflexive root back recorded labelled

private theorem mem_edges_of_recorded (built : graph.Built)
    (ends : SolveEnds graph grammar options)
    (known : (solve graph grammar options).provenance = some provenance)
    {id : DerivationId} {edge : Edge} (recorded : edge ∈ provenance.edges.row id) :
    edge ∈ graph.edges := by
  obtain ⟨valid, _⟩ := valid_solvedState built ends
  rw [provenance_solve] at known
  exact valid.sound.edges provenance known id edge recorded

theorem mem_labelledEdges_of_supports (built : graph.Built)
    (ends : SolveEnds graph grammar options)
    (known : (solve graph grammar options).provenance = some provenance)
    {targets : List Span} {edge : Edge}
    (member : edge ∈ provenance.supportingEdges targets) : edge ∈ graph.labelledEdges := by
  obtain ⟨⟨id, recorded⟩, labelled⟩ := Provenance.recorded_of_mem_supportingEdges member
  exact Graph.mem_labelledEdges.mpr
    ⟨mem_edges_of_recorded built ends known recorded, labelled⟩

variable {arity : Nonterminal → Nat} {answers targets : List Span}

/-- An answer goes back to the labelled edges of each of its derivations, also when
only the records that support the answers are retained. -/
theorem mem_supportingEdges_solve (built : graph.Built)
    (arities : grammar.HasArities arity)
    (known : (solve graph grammar options).provenance = some provenance)
    {span : Span} {used : List Edge}
    (derives : grammar.Derives graph Grammar.startName [span] used)
    (irreflexive : span.isReflexive = false) (answer : span ∈ answers)
    (target : span ∈ targets) {edge : Edge} (member : edge ∈ used)
    (labelled : edge.isEpsilon = false) :
    edge ∈ (provenance.retainSupporting answers).2.supportingEdges targets := by
  obtain ⟨id, origin, root, back, recorded⟩ :=
    exists_origin_solve built (arities.solveEnds built options) known derives member
  exact Provenance.mem_supportingEdges_retainSupporting answer target irreflexive root back
    recorded labelled

theorem mem_labelledEdges_of_supportingEdges (built : graph.Built)
    (arities : grammar.HasArities arity)
    (known : (solve graph grammar options).provenance = some provenance) {edge : Edge}
    (member : edge ∈ (provenance.retainSupporting answers).2.supportingEdges targets) :
    edge ∈ graph.labelledEdges :=
  mem_labelledEdges_of_supports built (arities.solveEnds built options) known
    (Provenance.mem_supportingEdges_of_retainSupporting member)

end Solve

end GrammarReach
