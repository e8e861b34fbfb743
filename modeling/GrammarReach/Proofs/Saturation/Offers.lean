import GrammarReach.Proofs.Saturation.Candidates
import GrammarReach.Saturation.Reachability

/-!
# Accepting candidates

Accepting a candidate only adds to a state: derivations keep their places, and
records and answers stay.  The derivations of a state are derivable, its recorded
edges are in the graph, and its answers are the ones taken.
-/

namespace GrammarReach

/-- The derivations that the rules make of edges and of one another, as far as the
segments of each can follow one another, with the edges that they use. -/
inductive Problem.Derives (problem : Problem) : Derivation → List Edge → Prop where
  | made {bodies : List Derivation} {edge : Option Edge} {derivation : Derivation}
      (used : Nat → List Edge) :
      (∀ position body, bodies[position]? = some body →
        Problem.Derives problem body (used position)) →
      problem.program.Makes problem.graph bodies edge derivation →
      RunState.isConsistent problem.components derivation = true →
      Problem.Derives problem derivation
        (edge.toList ++ (List.range bodies.length).flatMap used)

namespace RunState

/-! ## What accepting a candidate changes -/

/-- The later provenance has all records of the earlier one and the same roots. -/
structure ProvenanceGrows (earlier later : Provenance) : Prop where
  edges : ∀ id edge, edge ∈ earlier.edges.row id → edge ∈ later.edges.row id
  antecedents : ∀ id antecedent, antecedent ∈ earlier.antecedents.row id →
    antecedent ∈ later.antecedents.row id
  roots : later.roots = earlier.roots

/-- The later state extends the earlier one and has the same answers. -/
structure Grows (earlier later : RunState) : Prop where
  table : earlier.table.Extends later.table
  nonterminals : later.table.nonterminals = earlier.table.nonterminals
  taken : later.taken = earlier.taken
  spans : later.spans = earlier.spans
  provenance : ∀ after, later.provenance = some after →
    ∃ before, earlier.provenance = some before ∧ ProvenanceGrows before after

theorem ProvenanceGrows.refl (provenance : Provenance) :
    ProvenanceGrows provenance provenance :=
  ⟨fun _ _ member => member, fun _ _ member => member, rfl⟩

theorem ProvenanceGrows.trans {first second third : Provenance}
    (before : ProvenanceGrows first second) (behind : ProvenanceGrows second third) :
    ProvenanceGrows first third :=
  ⟨fun id edge member => behind.edges id edge (before.edges id edge member),
    fun id antecedent member =>
      behind.antecedents id antecedent (before.antecedents id antecedent member),
    behind.roots.trans before.roots⟩

theorem Grows.refl (state : RunState) : state.Grows state :=
  ⟨.refl _, rfl, rfl, rfl, fun after found => ⟨after, found, .refl after⟩⟩

theorem Grows.trans {first second third : RunState} (before : first.Grows second)
    (behind : second.Grows third) : first.Grows third := by
  refine ⟨before.table.trans behind.table, behind.nonterminals.trans before.nonterminals,
    behind.taken.trans before.taken, behind.spans.trans before.spans, ?_⟩
  intro last found
  obtain ⟨middle, middleFound, middleGrows⟩ := behind.provenance last found
  obtain ⟨start, startFound, startGrows⟩ := before.provenance middle middleFound
  exact ⟨start, startFound, startGrows.trans middleGrows⟩

section Origin

private theorem recordAntecedents_grows (id : DerivationId) (antecedents : List DerivationId)
    (provenance : Provenance) :
    ProvenanceGrows provenance (antecedents.foldl (fun provenance antecedent =>
      if antecedent = id then provenance
      else provenance.recordAntecedent id antecedent) provenance) := by
  induction antecedents generalizing provenance with
  | nil => exact .refl provenance
  | cons antecedent antecedents induction =>
      refine ProvenanceGrows.trans ?_ (induction _)
      by_cases same : antecedent = id
      · simp only [same, if_true]
        exact .refl provenance
      · simp only [same, if_false]
        exact ⟨fun _ _ member => member,
          fun _ _ member => Keyed.mem_row_pushNew.mpr (Or.inl member), rfl⟩

private theorem mem_recordAntecedents (id : DerivationId) {antecedents : List DerivationId}
    {antecedent : DerivationId} (member : antecedent ∈ antecedents)
    (different : antecedent ≠ id) (provenance : Provenance) :
    antecedent ∈ (antecedents.foldl (fun provenance antecedent =>
      if antecedent = id then provenance
      else provenance.recordAntecedent id antecedent) provenance).antecedents.row id := by
  induction antecedents generalizing provenance with
  | nil => simp at member
  | cons first antecedents induction =>
      rcases List.mem_cons.mp member with rfl | later
      · rw [List.foldl_cons, if_neg different]
        exact (recordAntecedents_grows id antecedents _).antecedents id antecedent
          (Keyed.mem_row_pushNew.mpr (Or.inr ⟨rfl, rfl⟩))
      · exact induction later _

private theorem edges_recordAntecedents (id : DerivationId)
    (antecedents : List DerivationId) (provenance : Provenance) :
    (antecedents.foldl (fun provenance antecedent =>
      if antecedent = id then provenance
      else provenance.recordAntecedent id antecedent) provenance).edges =
        provenance.edges := by
  induction antecedents generalizing provenance with
  | nil => rfl
  | cons first antecedents induction =>
      rw [List.foldl_cons, induction]
      split
      · rfl
      · rfl

theorem recordOrigin_grows (provenance : Provenance) (id : DerivationId)
    (candidate : Candidate) :
    ProvenanceGrows provenance (recordOrigin provenance id candidate) := by
  unfold recordOrigin
  cases candidate.edge with
  | none => exact recordAntecedents_grows id _ provenance
  | some edge =>
      refine ProvenanceGrows.trans ?_ (recordAntecedents_grows id _ _)
      exact ⟨fun _ _ member => Keyed.mem_row_pushNew.mpr (Or.inl member),
        fun _ _ member => member, rfl⟩

theorem mem_edges_recordOrigin {provenance : Provenance} {id other : DerivationId}
    {candidate : Candidate} {edge : Edge} :
    edge ∈ (recordOrigin provenance id candidate).edges.row other ↔
      edge ∈ provenance.edges.row other ∨ (other = id ∧ candidate.edge = some edge) := by
  unfold recordOrigin
  rw [edges_recordAntecedents]
  cases candidate.edge with
  | none => simp
  | some made =>
      refine Keyed.mem_row_pushNew.trans (or_congr_right ?_)
      rw [Option.some.injEq, @eq_comm _ edge made]

theorem mem_antecedents_recordOrigin {provenance : Provenance} {id antecedent : DerivationId}
    {candidate : Candidate} (member : antecedent ∈ candidate.antecedents)
    (different : antecedent ≠ id) :
    antecedent ∈ (recordOrigin provenance id candidate).antecedents.row id := by
  unfold recordOrigin
  exact mem_recordAntecedents id member different _

private theorem of_mem_recordAntecedents (id : DerivationId)
    {antecedents : List DerivationId} {provenance : Provenance} {other antecedent : DerivationId}
    (member : antecedent ∈ (antecedents.foldl (fun provenance antecedent =>
      if antecedent = id then provenance
      else provenance.recordAntecedent id antecedent) provenance).antecedents.row other) :
    antecedent ∈ provenance.antecedents.row other ∨ (other = id ∧ antecedent ∈ antecedents) := by
  induction antecedents generalizing provenance with
  | nil => exact Or.inl member
  | cons first antecedents induction =>
      rcases induction member with old | ⟨same, later⟩
      · simp only at old
        split at old
        · exact Or.inl old
        · exact (Keyed.mem_row_pushNew.mp old).imp_right fun ⟨same, new⟩ =>
            ⟨same, new ▸ List.mem_cons_self⟩
      · exact Or.inr ⟨same, .tail _ later⟩

theorem of_mem_antecedents_recordOrigin {provenance : Provenance}
    {id other antecedent : DerivationId} {candidate : Candidate}
    (member : antecedent ∈ (recordOrigin provenance id candidate).antecedents.row other) :
    antecedent ∈ provenance.antecedents.row other ∨
      (other = id ∧ antecedent ∈ candidate.antecedents) := by
  unfold recordOrigin at member
  cases edge : candidate.edge with
  | none =>
      rw [edge] at member
      exact of_mem_recordAntecedents id member
  | some made =>
      rw [edge] at member
      exact @of_mem_recordAntecedents id _ (provenance.recordEdge id made) _ _ member

end Origin

/-- The derivation is in the table, with the edge and the antecedents on record
when there is a record. -/
def Records (state : RunState) (made : Derivation) (edge : Option Edge)
    (antecedents : List DerivationId) : Prop :=
  ∃ id, state.table.derivation? id = some made ∧
    ∀ provenance, state.provenance = some provenance →
      (∀ used, edge = some used → used ∈ provenance.edges.row id) ∧
      ∀ antecedent ∈ antecedents,
        antecedent = id ∨ antecedent ∈ provenance.antecedents.row id

theorem Records.mono {earlier later : RunState} (grows : earlier.Grows later)
    {made : Derivation} {edge : Option Edge} {antecedents : List DerivationId}
    (records : earlier.Records made edge antecedents) :
    later.Records made edge antecedents := by
  obtain ⟨id, place, recorded⟩ := records
  refine ⟨id, grows.table id made place, ?_⟩
  intro after found
  obtain ⟨before, beforeFound, growing⟩ := grows.provenance after found
  obtain ⟨edges, origins⟩ := recorded before beforeFound
  refine ⟨fun used same => growing.edges id used (edges used same), ?_⟩
  intro antecedent member
  exact (origins antecedent member).imp_right (growing.antecedents id antecedent)

section Offer

variable (components : Components) (state : RunState) (candidate : Candidate)

private theorem offer_refused
    (refused : ¬ isConsistent components candidate.derivation = true) :
    offer components state candidate = state := by
  simp [offer, refused]

private theorem offer_accepted
    (consistent : isConsistent components candidate.derivation = true) :
    offer components state candidate =
      { table := (state.table.insert candidate.derivation).2.2
        taken := state.taken
        spans := state.spans
        provenance := state.provenance.map fun provenance =>
          recordOrigin provenance (state.table.insert candidate.derivation).1 candidate } := by
  simp [offer, consistent]

theorem offer_grows : state.Grows (offer components state candidate) := by
  by_cases consistent : isConsistent components candidate.derivation = true
  · rw [offer_accepted components state candidate consistent]
    refine ⟨DerivationTable.extends_insert _ _, DerivationTable.nonterminals_insert _ _,
      rfl, rfl, ?_⟩
    intro after found
    obtain ⟨before, beforeFound, rfl⟩ := Option.map_eq_some_iff.mp found
    exact ⟨before, beforeFound, recordOrigin_grows before _ candidate⟩
  · rw [offer_refused components state candidate consistent]
    exact .refl state

variable {components state candidate}

theorem offer_coherent (coherent : state.table.Coherent) :
    (offer components state candidate).table.Coherent := by
  by_cases consistent : isConsistent components candidate.derivation = true
  · rw [offer_accepted components state candidate consistent]
    exact coherent.insert _
  · rw [offer_refused components state candidate consistent]
    exact coherent

theorem offer_records (coherent : state.table.Coherent)
    (consistent : isConsistent components candidate.derivation = true) :
    (offer components state candidate).Records candidate.derivation candidate.edge
      candidate.antecedents := by
  rw [offer_accepted components state candidate consistent]
  refine ⟨(state.table.insert candidate.derivation).1,
    coherent.derivation?_insert candidate.derivation, ?_⟩
  intro after found
  obtain ⟨before, _, rfl⟩ := Option.map_eq_some_iff.mp found
  refine ⟨fun used same => mem_edges_recordOrigin.mpr (Or.inr ⟨rfl, same⟩), ?_⟩
  intro antecedent member
  by_cases same : antecedent = (state.table.insert candidate.derivation).1
  · exact Or.inl same
  · exact Or.inr (mem_antecedents_recordOrigin member same)

theorem offer_derivation?_cases {id : DerivationId} {derivation : Derivation}
    (found : (offer components state candidate).table.derivation? id = some derivation) :
    state.table.derivation? id = some derivation ∨
      (derivation = candidate.derivation ∧
        isConsistent components candidate.derivation = true) := by
  by_cases consistent : isConsistent components candidate.derivation = true
  · rw [offer_accepted components state candidate consistent] at found
    exact (DerivationTable.derivation?_insert_cases found).imp_right fun same =>
      ⟨same, consistent⟩
  · rw [offer_refused components state candidate consistent] at found
    exact Or.inl found

/-- A recorded edge was on record before or is that of an accepted candidate, under the
place of its derivation. -/
theorem offer_edges_cases (coherent : state.table.Coherent) {after : Provenance}
    {id : DerivationId} {edge : Edge}
    (found : (offer components state candidate).provenance = some after)
    (member : edge ∈ after.edges.row id) :
    (∃ before, state.provenance = some before ∧ edge ∈ before.edges.row id) ∨
      (isConsistent components candidate.derivation = true ∧
        (offer components state candidate).table.derivation? id = some candidate.derivation ∧
        candidate.edge = some edge) := by
  by_cases consistent : isConsistent components candidate.derivation = true
  · rw [offer_accepted components state candidate consistent] at found ⊢
    obtain ⟨before, beforeFound, rfl⟩ := Option.map_eq_some_iff.mp found
    rcases mem_edges_recordOrigin.mp member with old | ⟨rfl, new⟩
    · exact Or.inl ⟨before, beforeFound, old⟩
    · exact Or.inr ⟨consistent, coherent.derivation?_insert candidate.derivation, new⟩
  · rw [offer_refused components state candidate consistent] at found
    exact Or.inl ⟨after, found, member⟩

/-- A recorded antecedent was on record before or is one of an accepted candidate, under
the place of its derivation. -/
theorem offer_antecedents_cases (coherent : state.table.Coherent) {after : Provenance}
    {id antecedent : DerivationId}
    (found : (offer components state candidate).provenance = some after)
    (member : antecedent ∈ after.antecedents.row id) :
    (∃ before, state.provenance = some before ∧ antecedent ∈ before.antecedents.row id) ∨
      (isConsistent components candidate.derivation = true ∧
        (offer components state candidate).table.derivation? id = some candidate.derivation ∧
        antecedent ∈ candidate.antecedents) := by
  by_cases consistent : isConsistent components candidate.derivation = true
  · rw [offer_accepted components state candidate consistent] at found ⊢
    obtain ⟨before, beforeFound, rfl⟩ := Option.map_eq_some_iff.mp found
    rcases of_mem_antecedents_recordOrigin member with old | ⟨rfl, new⟩
    · exact Or.inl ⟨before, beforeFound, old⟩
    · exact Or.inr ⟨consistent, coherent.derivation?_insert candidate.derivation, new⟩
  · rw [offer_refused components state candidate consistent] at found
    exact Or.inl ⟨after, found, member⟩

end Offer

/-! ## Sound states -/

/-- The edge of the candidate is in the graph, and the candidate is derivable
unless it is refused. -/
structure SoundCandidate (problem : Problem) (candidate : Candidate) : Prop where
  edge : ∀ used, candidate.edge = some used → used ∈ problem.graph.edges
  derivable : isConsistent problem.components candidate.derivation = true →
    ∃ used, problem.Derives candidate.derivation used

/-- Every derivation of the table is derivable, and every recorded edge is in the
graph. -/
structure Sound (problem : Problem) (state : RunState) : Prop where
  coherent : state.table.Coherent
  taken_le : state.taken ≤ state.table.size
  derivable : ∀ id derivation, state.table.derivation? id = some derivation →
    ∃ used, problem.Derives derivation used
  edges : ∀ provenance, state.provenance = some provenance →
    ∀ id edge, edge ∈ provenance.edges.row id → edge ∈ problem.graph.edges

/-- Derivations of a table that are derivable can be given the edges that they use. -/
theorem exists_uses {problem : Problem} {table : DerivationTable}
    (derivable : ∀ id derivation, table.derivation? id = some derivation →
      ∃ used, problem.Derives derivation used) {ids : List DerivationId}
    {bodies : List Derivation} (holds : table.Holds ids bodies) :
    ∃ used : Nat → List Edge, ∀ position body, bodies[position]? = some body →
      problem.Derives body (used position) := by
  have bodyUse : ∀ position : Nat, ∃ used, ∀ body, bodies[position]? = some body →
      problem.Derives body used := by
    intro position
    cases found : bodies[position]? with
    | none => exact ⟨[], fun body impossible => by cases impossible⟩
    | some body =>
        obtain ⟨id, _, place⟩ := holds.of_body found
        obtain ⟨used, derives⟩ := derivable id body place
        refine ⟨used, ?_⟩
        intro other same
        cases same
        exact derives
  exact Classical.axiomOfChoice bodyUse

theorem soundCandidate_of_madeIn {problem : Problem} {table : DerivationTable}
    (derivable : ∀ id derivation, table.derivation? id = some derivation →
      ∃ used, problem.Derives derivation used) {candidate : Candidate}
    (made : candidate.MadeIn problem.graph problem.program table) :
    SoundCandidate problem candidate := by
  obtain ⟨bodies, holds, makes⟩ := made
  constructor
  · intro used same
    rw [same] at makes
    exact makes.edge_mem
  · intro consistent
    obtain ⟨used, derives⟩ := exists_uses derivable holds
    exact ⟨_, .made used derives makes consistent⟩

theorem size_le_of_extends {earlier later : DerivationTable}
    (extension : earlier.Extends later) : earlier.size ≤ later.size := by
  cases sizeEq : earlier.size with
  | zero => exact Nat.zero_le _
  | succ last =>
      have inside : last < earlier.size := sizeEq ▸ Nat.lt_succ_self last
      obtain ⟨derivation, found⟩ := DerivationTable.exists_derivation?_of_lt inside
      exact DerivationTable.lt_size_of_derivation? (extension last derivation found)

section Offers

variable {problem : Problem} {state : RunState}

theorem Sound.offer (sound : state.Sound problem) {candidate : Candidate}
    (soundCandidate : SoundCandidate problem candidate) :
    (offer problem.components state candidate).Sound problem := by
  have grows := offer_grows problem.components state candidate
  refine ⟨offer_coherent sound.coherent, ?_, ?_, ?_⟩
  · rw [grows.taken]
    exact Nat.le_trans sound.taken_le (size_le_of_extends grows.table)
  · intro id derivation found
    rcases offer_derivation?_cases found with old | ⟨rfl, consistent⟩
    · exact sound.derivable id derivation old
    · exact soundCandidate.derivable consistent
  · intro provenance found id edge member
    rcases offer_edges_cases sound.coherent found member with
      ⟨before, beforeFound, old⟩ | ⟨_, _, new⟩
    · exact sound.edges before beforeFound id edge old
    · exact soundCandidate.edge edge new

theorem foldl_offer_grows (components : Components) (state : RunState)
    (candidates : List Candidate) :
    state.Grows (candidates.foldl (RunState.offer components) state) := by
  induction candidates generalizing state with
  | nil => exact .refl state
  | cons candidate candidates induction =>
      exact (offer_grows components state candidate).trans (induction _)

theorem Sound.foldl_offer (sound : state.Sound problem) {candidates : List Candidate}
    (soundCandidates : ∀ candidate ∈ candidates, SoundCandidate problem candidate) :
    (candidates.foldl (RunState.offer problem.components) state).Sound problem := by
  induction candidates generalizing state with
  | nil => exact sound
  | cons candidate candidates induction =>
      exact induction (sound.offer (soundCandidates candidate (by simp)))
        fun other member => soundCandidates other (by simp [member])

/-- Every consistent candidate that is offered is recorded in the end. -/
theorem Sound.foldl_offer_records (sound : state.Sound problem)
    {candidates : List Candidate}
    (soundCandidates : ∀ candidate ∈ candidates, SoundCandidate problem candidate)
    {candidate : Candidate} (member : candidate ∈ candidates)
    (consistent : isConsistent problem.components candidate.derivation = true) :
    (candidates.foldl (RunState.offer problem.components) state).Records
      candidate.derivation candidate.edge candidate.antecedents := by
  induction candidates generalizing state with
  | nil => simp at member
  | cons first candidates induction =>
      rcases List.mem_cons.mp member with rfl | later
      · exact (offer_records sound.coherent consistent).mono
          (foldl_offer_grows problem.components _ candidates)
      · exact induction (sound.offer (soundCandidates first (by simp)))
          (fun other inRest => soundCandidates other (by simp [inRest])) later

end Offers

/-! ## Answers -/

/-- The answers and their roots are the one-segment derivations of the start
nonterminal that were taken. -/
structure Answers (problem : Problem) (state : RunState) : Prop where
  spans : ∀ span, span ∈ state.spans ↔ ∃ id < state.taken,
    state.table.derivation? id = some ⟨problem.program.start, [span]⟩
  roots : ∀ provenance, state.provenance = some provenance → ∀ span id,
    provenance.roots[span]? = some id ↔ id < state.taken ∧
      state.table.derivation? id = some ⟨problem.program.start, [span]⟩

/-- Derivations below the size of the earlier table are the same in the later
one. -/
theorem derivation?_iff_of_extends {earlier later : DerivationTable}
    (extension : earlier.Extends later) {id : DerivationId} (inside : id < earlier.size)
    {derivation : Derivation} :
    later.derivation? id = some derivation ↔
      earlier.derivation? id = some derivation := by
  constructor
  · intro found
    obtain ⟨other, place⟩ := DerivationTable.exists_derivation?_of_lt inside
    have moved := extension id other place
    rw [found] at moved
    cases moved
    exact place
  · exact extension id derivation

theorem Answers.mono {problem : Problem} {earlier later : RunState}
    (answers : earlier.Answers problem) (inside : earlier.taken ≤ earlier.table.size)
    (grows : earlier.Grows later) : later.Answers problem := by
  constructor
  · intro span
    rw [grows.spans, answers.spans span, grows.taken]
    refine exists_congr fun id => and_congr_right fun below => ?_
    exact (derivation?_iff_of_extends grows.table (Nat.lt_of_lt_of_le below inside)).symm
  · intro after found span id
    obtain ⟨before, beforeFound, growing⟩ := grows.provenance after found
    rw [growing.roots, answers.roots before beforeFound span id, grows.taken]
    apply and_congr_right
    intro below
    exact (derivation?_iff_of_extends grows.table (Nat.lt_of_lt_of_le below inside)).symm

section Note

variable {problem : Problem} {state : RunState} {derivation : Derivation}

/-- The state after the next derivation was noted and before its candidates are
offered. -/
def taking (problem : Problem) (state : RunState) (derivation : Derivation) : RunState :=
  { noteAnswer problem.program.start state state.taken derivation with
    taken := state.taken + 1 }

theorem advance_eq (found : state.table.derivation? state.taken = some derivation) :
    advance problem state =
      (Candidate.all problem.graph problem.program state.table state.taken
        derivation).foldl (RunState.offer problem.components)
          (taking problem state derivation) := by
  have sameTable : (noteAnswer problem.program.start state state.taken derivation).table =
      state.table := by
    unfold noteAnswer
    split
    · split
      · rfl
      · rfl
    · rfl
  simp only [advance, found, sameTable, taking]

private theorem noteAnswer_cases (start : NonterminalId) (state : RunState)
    (id : DerivationId) (derivation : Derivation) :
    (∃ span, derivation = ⟨start, [span]⟩ ∧ noteAnswer start state id derivation =
      { state with
        spans := state.spans.push span
        provenance := state.provenance.map fun provenance =>
          provenance.recordRoot span id }) ∨
    ((∀ span, derivation ≠ ⟨start, [span]⟩) ∧
      noteAnswer start state id derivation = state) := by
  obtain ⟨nonterminal, segments⟩ := derivation
  unfold noteAnswer
  split
  · rename_i span segment
    simp only at segment
    subst segment
    by_cases same : nonterminal = start
    · subst same
      exact Or.inl ⟨span, rfl, by simp⟩
    · refine Or.inr ⟨?_, by simp [same]⟩
      intro other equality
      exact same (congrArg Derivation.nonterminal equality)
  · rename_i other
    refine Or.inr ⟨?_, rfl⟩
    intro span equality
    cases equality
    exact other span rfl

theorem taking_table : (taking problem state derivation).table = state.table := by
  rcases noteAnswer_cases problem.program.start state state.taken derivation with
    ⟨span, _, same⟩ | ⟨_, same⟩
  · simp [taking, same]
  · simp [taking, same]

theorem taking_taken : (taking problem state derivation).taken = state.taken + 1 := rfl

theorem taking_provenance {after : Provenance}
    (found : (taking problem state derivation).provenance = some after) :
    ∃ before, state.provenance = some before ∧ after.edges = before.edges ∧
      after.antecedents = before.antecedents := by
  rcases noteAnswer_cases problem.program.start state state.taken derivation with
    ⟨span, _, same⟩ | ⟨_, same⟩
  · simp only [taking, same] at found
    obtain ⟨before, beforeFound, rfl⟩ := Option.map_eq_some_iff.mp found
    exact ⟨before, beforeFound, rfl, rfl⟩
  · simp only [taking, same] at found
    exact ⟨after, found, rfl, rfl⟩

theorem Sound.taking (sound : state.Sound problem)
    (found : state.table.derivation? state.taken = some derivation) :
    (taking problem state derivation).Sound problem := by
  constructor
  · rw [taking_table]
    exact sound.coherent
  · rw [taking_table, taking_taken]
    exact DerivationTable.lt_size_of_derivation? found
  · rw [taking_table]
    exact sound.derivable
  · intro after afterFound
    obtain ⟨before, beforeFound, sameEdges, _⟩ := taking_provenance afterFound
    rw [sameEdges]
    exact sound.edges before beforeFound

private theorem lt_taken_and_iff (found : state.table.derivation? state.taken = some derivation)
    {other : DerivationId} {place : Derivation} :
    (other < state.taken + 1 ∧ state.table.derivation? other = some place) ↔
      (other < state.taken ∧ state.table.derivation? other = some place) ∨
        (other = state.taken ∧ derivation = place) := by
  constructor
  · rintro ⟨below, same⟩
    rcases Nat.lt_succ_iff_lt_or_eq.mp below with earlier | rfl
    · exact Or.inl ⟨earlier, same⟩
    · rw [found] at same
      exact Or.inr ⟨rfl, Option.some.inj same⟩
  · rintro (⟨below, same⟩ | ⟨rfl, rfl⟩)
    · exact ⟨Nat.lt_succ_of_lt below, same⟩
    · exact ⟨Nat.lt_succ_self _, found⟩

private theorem roots_recordRoot {provenance : Provenance} {span other : Span}
    {root id : DerivationId} (fresh : provenance.roots[span]? = none) :
    (provenance.recordRoot span root).roots[other]? = some id ↔
      provenance.roots[other]? = some id ∨ id = root ∧ other = span := by
  have notMember : span ∉ provenance.roots := by
    rw [Std.TreeMap.mem_iff_isSome_getElem?, fresh]
    exact Bool.false_ne_true
  rw [Provenance.recordRoot, Std.TreeMap.getElem?_insertIfNew]
  by_cases here : span = other
  · subst here
    simp [notMember, eq_comm]
  · have different : ¬ other = span := fun equality => here equality.symm
    simp [here, different]

private theorem Answers.roots_eq_none (answers : state.Answers problem)
    (coherent : state.table.Coherent) {span : Span} {provenance : Provenance}
    (found : state.table.derivation? state.taken = some ⟨problem.program.start, [span]⟩)
    (recorded : state.provenance = some provenance) : provenance.roots[span]? = none := by
  cases root : provenance.roots[span]? with
  | none => rfl
  | some known =>
      obtain ⟨below, place⟩ := (answers.roots provenance recorded span known).mp root
      exact absurd (coherent.place_unique place found) (Nat.ne_of_lt below)

theorem Answers.taking (answers : state.Answers problem) (coherent : state.table.Coherent)
    (found : state.table.derivation? state.taken = some derivation) :
    (taking problem state derivation).Answers problem := by
  rcases noteAnswer_cases problem.program.start state state.taken derivation with
    ⟨newSpan, rfl, same⟩ | ⟨notAnswer, same⟩
  · have isAnswer : ∀ span, (⟨problem.program.start, [newSpan]⟩ : Derivation) =
        ⟨problem.program.start, [span]⟩ ↔ span = newSpan := by
      intro span
      simp [eq_comm]
    constructor
    · intro span
      simp only [RunState.taking, same, Array.mem_push, answers.spans span,
        lt_taken_and_iff found, exists_or, exists_eq_left, isAnswer]
    · intro after afterFound span id
      simp only [RunState.taking, same] at afterFound
      obtain ⟨before, beforeFound, rfl⟩ := Option.map_eq_some_iff.mp afterFound
      simp only [RunState.taking, same, lt_taken_and_iff found, isAnswer]
      rw [roots_recordRoot (answers.roots_eq_none coherent found beforeFound),
        answers.roots before beforeFound span id]
  · constructor
    · intro span
      simp only [RunState.taking, same, answers.spans span, lt_taken_and_iff found,
        notAnswer span, and_false, or_false]
    · intro after afterFound span id
      simp only [RunState.taking, same] at afterFound
      simp only [RunState.taking, same, lt_taken_and_iff found, notAnswer span, and_false,
        or_false]
      exact answers.roots after afterFound span id

end Note

end RunState

end GrammarReach
