import GrammarReach.Proofs.Saturation.SupportedAnswers

/-!
# Recorded origins are true

A recorded edge is used by a derivation tree of the derivation that it is recorded for,
and every tree of a recorded antecedent is part of one.  Hence an edge that supports some
answers is used by a derivation of one of them.
-/

namespace GrammarReach

/-- Every tree of the body is part of a tree of the derivation, as far as the used edges
tell. -/
def Problem.Includes (problem : Problem) (derivation body : Derivation) : Prop :=
  ∀ used, problem.Derives body used →
    ∃ wider, problem.Derives derivation wider ∧ ∀ edge ∈ used, edge ∈ wider

theorem Problem.Includes.refl (problem : Problem) (derivation : Derivation) :
    problem.Includes derivation derivation :=
  fun used derives => ⟨used, derives, fun _ member => member⟩

theorem Problem.Includes.trans {problem : Problem} {whole part piece : Derivation}
    (outer : problem.Includes whole part) (inner : problem.Includes part piece) :
    problem.Includes whole piece := by
  intro used derives
  obtain ⟨wider, partDerives, sub⟩ := inner used derives
  obtain ⟨widest, wholeDerives, partSub⟩ := outer wider partDerives
  exact ⟨widest, wholeDerives, fun edge member => partSub edge (sub edge member)⟩

namespace RunState

/-- The edge of the candidate is used by a tree of its derivation, and its antecedents are
included in it. -/
structure TrueCandidate (problem : Problem) (table : DerivationTable)
    (candidate : Candidate) : Prop where
  edge : isConsistent problem.components candidate.derivation = true →
    ∀ edge, candidate.edge = some edge →
      ∃ used, problem.Derives candidate.derivation used ∧ edge ∈ used
  antecedents : isConsistent problem.components candidate.derivation = true →
    ∀ antecedent ∈ candidate.antecedents, ∃ body,
      table.derivation? antecedent = some body ∧ problem.Includes candidate.derivation body

/-- What is on record for a derivation is used by its trees. -/
structure TrueRecords (problem : Problem) (state : RunState) : Prop where
  edges : ∀ provenance, state.provenance = some provenance →
    ∀ id edge, edge ∈ provenance.edges.row id →
      ∃ derivation used, state.table.derivation? id = some derivation ∧
        problem.Derives derivation used ∧ edge ∈ used
  antecedents : ∀ provenance, state.provenance = some provenance →
    ∀ id antecedent, antecedent ∈ provenance.antecedents.row id →
      ∃ derivation body, state.table.derivation? id = some derivation ∧
        state.table.derivation? antecedent = some body ∧ problem.Includes derivation body

section Steps

variable {problem : Problem} {state : RunState}

theorem trueCandidate_of_madeIn {table : DerivationTable}
    (derivable : ∀ id derivation, table.derivation? id = some derivation →
      ∃ used, problem.Derives derivation used) {candidate : Candidate}
    (made : candidate.MadeIn problem.graph problem.program table) :
    TrueCandidate problem table candidate := by
  obtain ⟨bodies, holds, makes⟩ := made
  obtain ⟨used, derives⟩ := exists_uses derivable holds
  constructor
  · intro consistent edge same
    refine ⟨_, .made used derives makes consistent, ?_⟩
    rw [same]
    exact List.mem_append_left _ (List.mem_singleton_self edge)
  · intro consistent antecedent member
    obtain ⟨position, found⟩ := List.mem_iff_getElem?.mp member
    obtain ⟨body, bodyFound, place⟩ := holds.of_id found
    refine ⟨body, place, fun bodyUsed bodyDerives => ?_⟩
    let replaced : Nat → List Edge := fun other => if other = position then bodyUsed else used other
    have replacedDerives : ∀ other otherBody, bodies[other]? = some otherBody →
        problem.Derives otherBody (replaced other) := by
      intro other otherBody otherFound
      by_cases same : other = position
      · subst same
        rw [bodyFound] at otherFound
        cases otherFound
        simpa [replaced] using bodyDerives
      · simpa [replaced, same] using derives other otherBody otherFound
    refine ⟨_, .made replaced replacedDerives makes consistent, fun edge inBody => ?_⟩
    have inside : position < bodies.length := (List.getElem?_eq_some_iff.mp bodyFound).1
    exact List.mem_append_right _ (List.mem_flatMap.mpr
      ⟨position, List.mem_range.mpr inside, by simpa [replaced] using inBody⟩)

theorem TrueCandidate.mono {earlier later : DerivationTable} (extension : earlier.Extends later)
    {candidate : Candidate} (isTrue : TrueCandidate problem earlier candidate) :
    TrueCandidate problem later candidate := by
  refine ⟨isTrue.edge, fun consistent antecedent member => ?_⟩
  obtain ⟨body, place, includes⟩ := isTrue.antecedents consistent antecedent member
  exact ⟨body, extension antecedent body place, includes⟩

theorem TrueRecords.offer (coherent : state.table.Coherent)
    (isTrue : state.TrueRecords problem) {candidate : Candidate}
    (trueCandidate : TrueCandidate problem state.table candidate) :
    (offer problem.components state candidate).TrueRecords problem := by
  have extension := (offer_grows problem.components state candidate).table
  constructor
  · intro after found id edge member
    rcases offer_edges_cases coherent found member with
      ⟨before, known, old⟩ | ⟨consistent, place, new⟩
    · obtain ⟨derivation, used, place, derives, inUsed⟩ := isTrue.edges before known id edge old
      exact ⟨derivation, used, extension id derivation place, derives, inUsed⟩
    · obtain ⟨used, derives, inUsed⟩ := trueCandidate.edge consistent edge new
      exact ⟨candidate.derivation, used, place, derives, inUsed⟩
  · intro after found id antecedent member
    rcases offer_antecedents_cases coherent found member with
      ⟨before, known, old⟩ | ⟨consistent, place, new⟩
    · obtain ⟨derivation, body, place, bodyPlace, includes⟩ :=
        isTrue.antecedents before known id antecedent old
      exact ⟨derivation, body, extension id derivation place,
        extension antecedent body bodyPlace, includes⟩
    · obtain ⟨body, bodyPlace, includes⟩ := trueCandidate.antecedents consistent antecedent new
      exact ⟨candidate.derivation, body, place, extension antecedent body bodyPlace, includes⟩

theorem TrueRecords.foldl_offer (coherent : state.table.Coherent)
    (isTrue : state.TrueRecords problem) {candidates : List Candidate}
    (trueCandidates : ∀ candidate ∈ candidates, TrueCandidate problem state.table candidate) :
    (candidates.foldl (RunState.offer problem.components) state).TrueRecords problem := by
  induction candidates generalizing state with
  | nil => exact isTrue
  | cons candidate candidates induction =>
      obtain ⟨first, rest⟩ := List.forall_mem_cons.mp trueCandidates
      have extension := (offer_grows problem.components state candidate).table
      exact induction (offer_coherent coherent) (isTrue.offer coherent first)
        fun other member => (rest other member).mono extension

theorem TrueRecords.advance (indexed : problem.graph.Indexed)
    (wellFiled : problem.program.WellFiled) (valid : state.Valid problem)
    (isTrue : state.TrueRecords problem) {derivation : Derivation}
    (found : state.table.derivation? state.taken = some derivation) :
    (state.advance problem).TrueRecords problem := by
  have taken : (taking problem state derivation).TrueRecords problem := by
    constructor
    · intro after known
      obtain ⟨before, earlier, sameEdges, _⟩ := taking_provenance known
      rw [sameEdges, taking_table]
      exact isTrue.edges before earlier
    · intro after known
      obtain ⟨before, earlier, _, sameAntecedents⟩ := taking_provenance known
      rw [sameAntecedents, taking_table]
      exact isTrue.antecedents before earlier
  rw [advance_eq found]
  refine taken.foldl_offer (by rw [taking_table]; exact valid.sound.coherent) ?_
  intro candidate member
  rw [taking_table]
  exact trueCandidate_of_madeIn valid.sound.derivable
    (Candidate.madeIn_of_mem_all indexed wellFiled valid.sound.coherent found member)

theorem trueRecords_blank {nonterminals : Nonterminals} {options : SolveOptions} :
    (blank nonterminals options).TrueRecords problem where
  edges provenance known id edge member := by
    rw [eq_empty_of_provenance_blank known] at member
    simp [Provenance.empty, Keyed.row_empty] at member
  antecedents provenance known id antecedent member := by
    rw [eq_empty_of_provenance_blank known] at member
    simp [Provenance.empty, Keyed.row_empty] at member

theorem trueRecords_initial (nonterminals : Nonterminals) (options : SolveOptions) :
    (problem.initial nonterminals options).TrueRecords problem := by
  refine trueRecords_blank.foldl_offer (DerivationTable.coherent_ofNonterminals nonterminals) ?_
  intro candidate member
  obtain ⟨edge, edgeMember, head, filed, rfl⟩ := mem_seeds.mp member
  exact trueCandidate_of_madeIn sound_blank.derivable ⟨[], rfl, .basic edgeMember filed⟩

theorem TrueRecords.run (indexed : problem.graph.Indexed)
    (wellFiled : problem.program.WellFiled) (valid : state.Valid problem)
    (isTrue : state.TrueRecords problem) (ends : Ends problem state) (counted : Nat) :
    (run problem counted state).TrueRecords problem := by
  obtain ⟨_, steps, same⟩ := ends.exists_iterate counted
  rw [same]
  refine (iterate_advance_induction
    (motive := fun state => state.Valid problem ∧ state.TrueRecords problem)
    (fun state derivation invariant found => ?_) ⟨valid, isTrue⟩ steps).2
  exact ⟨invariant.1.advance indexed wellFiled found,
    invariant.2.advance indexed wellFiled invariant.1 found⟩

theorem TrueRecords.includes_of_goesBackTo (isTrue : state.TrueRecords problem)
    {provenance : Provenance} (known : state.provenance = some provenance)
    {id origin : DerivationId} {whole : Derivation}
    (place : state.table.derivation? id = some whole) (way : provenance.GoesBackTo id origin) :
    ∃ part, state.table.derivation? origin = some part ∧ problem.Includes whole part := by
  induction way with
  | refl => exact ⟨whole, place, .refl problem whole⟩
  | tail _ step induction =>
      obtain ⟨middle, middlePlace, outer⟩ := induction
      obtain ⟨derivation, body, samePlace, bodyPlace, inner⟩ :=
        isTrue.antecedents provenance known _ _ step
      rw [middlePlace] at samePlace
      cases samePlace
      exact ⟨body, bodyPlace, outer.trans inner⟩

end Steps

end RunState

section Solve

variable {graph : Graph} {grammar : Grammar} {arity : Nonterminal → Nat}
  {options : SolveOptions} {provenance : Provenance} {answers targets : List Span}

/-- An edge that supports some targets is used by a derivation of one of them whose ends
differ. -/
theorem exists_derives_of_supports (built : graph.Built)
    (ends : SolveEnds graph grammar options)
    (known : (solve graph grammar options).provenance = some provenance) {edge : Edge}
    (member : edge ∈ provenance.supportingEdges targets) :
    ∃ span ∈ targets, span.isReflexive = false ∧
      ∃ used, grammar.Derives graph Grammar.startName [span] used ∧ edge ∈ used := by
  have represents := Program.represents_ofGrammar grammar
  obtain ⟨valid, _⟩ := valid_solvedState built ends
  have isTrue : (solvedState graph grammar options).TrueRecords
      (Problem.ofGrammar graph grammar).2 := by
    rw [solvedState]
    exact (RunState.trueRecords_initial _ options).run built.indexed represents.wellFiled
      (valid_initialState graph grammar options) ends _
  rw [provenance_solve] at known
  obtain ⟨⟨span, target, irreflexive, id, origin, root, way, recorded⟩, _⟩ :=
    Provenance.exists_origin_of_mem_supportingEdges member
  obtain ⟨_, place⟩ := (valid.answers.roots provenance known span id).mp root
  obtain ⟨part, partPlace, includes⟩ := isTrue.includes_of_goesBackTo known place way
  obtain ⟨derivation, used, samePlace, derives, inUsed⟩ := isTrue.edges provenance known origin
    edge recorded
  rw [partPlace] at samePlace
  cases samePlace
  obtain ⟨wider, wholeDerives, sub⟩ := includes used derives
  obtain ⟨name, numbered, grammarDerives⟩ := wholeDerives.toGrammar represents
  have same := represents.coherent.id_injective _ _ _ numbered represents.start
  exact ⟨span, target, irreflexive, wider, same ▸ grammarDerives, sub edge inUsed⟩

theorem exists_derives_of_supportingEdges (built : graph.Built)
    (arities : grammar.HasArities arity)
    (known : (solve graph grammar options).provenance = some provenance) {edge : Edge}
    (member : edge ∈ (provenance.retainSupporting answers).2.supportingEdges targets) :
    ∃ span ∈ targets, span.isReflexive = false ∧
      ∃ used, grammar.Derives graph Grammar.startName [span] used ∧ edge ∈ used :=
  exists_derives_of_supports built (arities.solveEnds built options) known
    (Provenance.mem_supportingEdges_of_retainSupporting member)

end Solve

end GrammarReach
