import GrammarReach.Proofs.Derivation.Support
import GrammarReach.Proofs.Saturation.Offers
import Mathlib.Logic.Function.Iterate

/-!
# The invariant of a run

Whatever the rules make of the derivations taken so far has been accepted with
its origin.  A run that took its whole table therefore holds every derivable
derivation, and the edges that it uses can be found by going back through the
records.
-/

namespace GrammarReach

namespace RunState

/-- Whatever the rules make of derivations that were taken is recorded. -/
def Saturated (problem : Problem) (state : RunState) : Prop :=
  ∀ ids bodies edge made, state.table.Holds ids bodies →
    (∀ id ∈ ids, id < state.taken) →
    problem.program.Makes problem.graph bodies edge made →
    isConsistent problem.components made = true → state.Records made edge ids

/-- The invariant of a run. -/
structure Valid (problem : Problem) (state : RunState) : Prop where
  sound : state.Sound problem
  answers : state.Answers problem
  saturated : state.Saturated problem

section Steps

variable {problem : Problem} {state : RunState}

private theorem holds_of_extends {earlier later : DerivationTable}
    (extension : earlier.Extends later) {ids : List DerivationId}
    {bodies : List Derivation} (holds : later.Holds ids bodies)
    (inside : ∀ id ∈ ids, id < earlier.size) : earlier.Holds ids bodies := by
  induction ids generalizing bodies with
  | nil => exact holds
  | cons id ids induction =>
      cases bodies with
      | nil => simp [DerivationTable.Holds] at holds
      | cons body bodies =>
          simp only [DerivationTable.Holds, List.map_cons, List.cons.injEq] at holds ⊢
          exact ⟨(derivation?_iff_of_extends extension (inside id (by simp))).mp holds.1,
            induction holds.2 fun other member => inside other (by simp [member])⟩

/-- Taking a derivation and offering its candidates keeps the invariant. -/
theorem Valid.advance (indexed : problem.graph.Indexed)
    (wellFiled : problem.program.WellFiled) (valid : state.Valid problem)
    {derivation : Derivation}
    (found : state.table.derivation? state.taken = some derivation) :
    (state.advance problem).Valid problem := by
  have soundTaking := valid.sound.taking found
  have soundCandidates : ∀ candidate ∈ Candidate.all problem.graph problem.program
      state.table state.taken derivation, SoundCandidate problem candidate := by
    intro candidate member
    exact soundCandidate_of_madeIn valid.sound.derivable
      (Candidate.madeIn_of_mem_all indexed wellFiled valid.sound.coherent found member)
  have grows := foldl_offer_grows problem.components (taking problem state derivation)
    (Candidate.all problem.graph problem.program state.table state.taken derivation)
  rw [advance_eq found]
  refine ⟨soundTaking.foldl_offer soundCandidates,
    (valid.answers.taking valid.sound.coherent found).mono soundTaking.taken_le grows, ?_⟩
  intro ids bodies edge made holds below makes consistent
  rw [grows.taken, taking_taken] at below
  have taken_lt := DerivationTable.lt_size_of_derivation? found
  have before : state.table.Holds ids bodies := by
    have extension := grows.table
    rw [taking_table] at extension
    apply holds_of_extends extension holds
    intro id member
    exact Nat.lt_of_lt_of_le (below id member) taken_lt
  by_cases last : state.taken ∈ ids
  · have candidate := Candidate.mem_all indexed wellFiled valid.sound.coherent found
      before makes last
    exact soundTaking.foldl_offer_records soundCandidates candidate consistent
  · have earlier : ∀ id ∈ ids, id < state.taken := by
      intro id member
      rcases Nat.lt_succ_iff_lt_or_eq.mp (below id member) with inside | rfl
      · exact inside
      · exact absurd member last
    obtain ⟨id, place, recorded⟩ :=
      valid.saturated ids bodies edge made before earlier makes consistent
    have kept : (taking problem state derivation).Records made edge ids := by
      refine ⟨id, by rw [taking_table]; exact place, ?_⟩
      intro after afterFound
      obtain ⟨provenance, known, sameEdges, sameAntecedents⟩ := taking_provenance afterFound
      rw [sameEdges, sameAntecedents]
      exact recorded provenance known
    exact kept.mono grows

theorem mem_seeds {graph : Graph} {program : Program} {candidate : Candidate} :
    candidate ∈ seeds graph program ↔
      ∃ edge ∈ graph.edges, ∃ head ∈ program.basic.row edge.label,
        candidate = ⟨⟨head, [⟨edge.source, edge.target⟩]⟩, some edge, []⟩ := by
  simp only [seeds, List.mem_flatMap, List.mem_map, Array.mem_toList_iff, eq_comm]

theorem soundCandidate_of_mem_seeds
    (derivable : ∀ id derivation, state.table.derivation? id = some derivation →
      ∃ used, problem.Derives derivation used) {candidate : Candidate}
    (member : candidate ∈ seeds problem.graph problem.program) :
    SoundCandidate problem candidate := by
  obtain ⟨edge, edgeMember, head, filed, rfl⟩ := mem_seeds.mp member
  exact soundCandidate_of_madeIn derivable ⟨[], rfl, .basic edgeMember filed⟩

/-- The state that the edges of basic rules are offered to: nothing is accepted, and nothing
is recorded. -/
def blank (nonterminals : Nonterminals) (options : SolveOptions) : RunState where
  table := .ofNonterminals nonterminals
  provenance := if options.recordProvenance then some .empty else none

section Blank

variable {nonterminals : Nonterminals} {options : SolveOptions}

@[simp]
theorem derivation?_blank (id : DerivationId) :
    (blank nonterminals options).table.derivation? id = none := by
  simp [blank, DerivationTable.ofNonterminals, DerivationTable.derivation?]

theorem eq_empty_of_provenance_blank {provenance : Provenance}
    (found : (blank nonterminals options).provenance = some provenance) :
    provenance = .empty := by
  simp only [blank] at found
  split at found
  · exact (Option.some.inj found).symm
  · cases found

theorem sound_blank : (blank nonterminals options).Sound problem where
  coherent := DerivationTable.coherent_ofNonterminals nonterminals
  taken_le := Nat.zero_le _
  derivable id derivation found := by
    rw [derivation?_blank] at found
    cases found
  edges provenance found id edge member := by
    rw [eq_empty_of_provenance_blank found] at member
    simp [Provenance.empty, Keyed.row_empty] at member

theorem answers_blank : (blank nonterminals options).Answers problem where
  spans span := by simp [blank]
  roots provenance found span id := by
    rw [eq_empty_of_provenance_blank found]
    simp [Provenance.empty]

end Blank

/-- All seeds are recorded at the beginning of a run, and nothing else can be made before a
derivation is taken. -/
theorem valid_initial (wellFiled : problem.program.WellFiled)
    (nonterminals : Nonterminals) (options : SolveOptions) :
    (problem.initial nonterminals options).Valid problem := by
  have sound : (blank nonterminals options).Sound problem := sound_blank
  have soundSeeds : ∀ candidate ∈ seeds problem.graph problem.program,
      SoundCandidate problem candidate :=
    fun candidate => soundCandidate_of_mem_seeds sound.derivable
  have grows := foldl_offer_grows problem.components (blank nonterminals options)
    (seeds problem.graph problem.program)
  refine ⟨sound.foldl_offer soundSeeds, answers_blank.mono sound.taken_le grows, ?_⟩
  intro ids bodies edge made holds below makes consistent
  obtain rfl : ids = [] := by
    rw [List.eq_nil_iff_forall_not_mem]
    intro id member
    have taken := below id member
    rw [show (problem.initial nonterminals options).taken = 0 from grows.taken] at taken
    exact Nat.not_lt_zero id taken
  obtain rfl : bodies = [] := List.length_eq_zero_iff.mp holds.length_eq.symm
  cases makes with
  | basic edgeMember filed =>
      have seed := mem_seeds.mpr ⟨_, edgeMember, _, filed, rfl⟩
      exact sound.foldl_offer_records soundSeeds seed consistent
  | join used names _ =>
      obtain ⟨body, position, filed⟩ := used
      have found := (wellFiled.filed _ _ _ ⟨body, position, filed⟩).mp filed
      rw [← names] at found
      simp at found

end Steps

/-! ## Runs that end -/

section Run

variable {problem : Problem} {state : RunState}

/-- The run takes its whole table after finitely many steps. -/
def Ends (problem : Problem) (state : RunState) : Prop :=
  ∃ steps, ((advance problem)^[steps] state).isFinished = true

theorem advance_of_finished (finished : state.isFinished = true) :
    state.advance problem = state := by
  have size : state.table.size ≤ state.taken := by
    simpa [isFinished] using finished
  have outside : state.table.derivation? state.taken = none :=
    Array.getElem?_eq_none size
  simp [advance, outside]

theorem exists_of_not_finished (unfinished : ¬ state.isFinished = true) :
    ∃ derivation, state.table.derivation? state.taken = some derivation := by
  have inside : state.taken < state.table.size := by
    simpa [isFinished] using unfinished
  exact DerivationTable.exists_derivation?_of_lt inside

theorem advance_taken (unfinished : ¬ state.isFinished = true) :
    (state.advance problem).taken = state.taken + 1 := by
  obtain ⟨derivation, found⟩ := exists_of_not_finished unfinished
  rw [advance_eq found, (foldl_offer_grows _ _ _).taken, taking_taken]

theorem run_eq_runOn (problem : Problem) (counted : Nat) (state : RunState) :
    run problem counted state = runOn problem state := by
  induction counted generalizing state with
  | zero => rfl
  | succ counted induction =>
      rw [run, runOn, induction]

/-- A run returns the state that it finishes in. -/
theorem run_eq_iterate {steps : Nat}
    (finished : ((advance problem)^[steps] state).isFinished = true) (counted : Nat) :
    run problem counted state = (advance problem)^[steps] state := by
  rw [run_eq_runOn]
  induction steps generalizing state with
  | zero =>
      rw [Function.iterate_zero_apply] at finished ⊢
      rw [runOn, if_pos finished]
  | succ steps induction =>
      have later := induction finished
      rw [runOn]
      by_cases already : state.isFinished = true
      · rw [if_pos already, Function.iterate_succ_apply, ← later,
          advance_of_finished already, runOn, if_pos already]
      · rw [if_neg already, later, Function.iterate_succ_apply]

theorem Ends.exists_iterate (ends : Ends problem state) (counted : Nat) :
    (run problem counted state).isFinished = true ∧
      ∃ steps, run problem counted state = (advance problem)^[steps] state := by
  obtain ⟨steps, finished⟩ := ends
  rw [run_eq_iterate finished]
  exact ⟨finished, steps, rfl⟩

theorem iterate_advance_induction {motive : RunState → Prop}
    (step : ∀ state derivation, motive state →
      state.table.derivation? state.taken = some derivation →
        motive (state.advance problem))
    (holds : motive state) (steps : Nat) : motive ((advance problem)^[steps] state) := by
  induction steps with
  | zero => exact holds
  | succ steps induction =>
      rw [Function.iterate_succ_apply']
      by_cases finished : ((advance problem)^[steps] state).isFinished = true
      · rw [advance_of_finished finished]
        exact induction
      · obtain ⟨derivation, found⟩ := exists_of_not_finished finished
        exact step _ derivation induction found

theorem Valid.iterate (indexed : problem.graph.Indexed)
    (wellFiled : problem.program.WellFiled) (valid : state.Valid problem) (steps : Nat) :
    ((RunState.advance problem)^[steps] state).Valid problem :=
  iterate_advance_induction
    (fun _ _ valid found => valid.advance indexed wellFiled found) valid steps

theorem Valid.run (indexed : problem.graph.Indexed)
    (wellFiled : problem.program.WellFiled) (valid : state.Valid problem)
    (ends : Ends problem state) (counted : Nat) :
    (run problem counted state).Valid problem := by
  obtain ⟨_, steps, same⟩ := ends.exists_iterate counted
  rw [same]
  exact valid.iterate indexed wellFiled steps

/-- A run whose tables have bounded size ends. -/
theorem Valid.ends (indexed : problem.graph.Indexed)
    (wellFiled : problem.program.WellFiled) {limit : Nat}
    (bounded : ∀ state : RunState, state.Valid problem → state.table.size ≤ limit)
    (valid : state.Valid problem) : Ends problem state := by
  by_contra endless
  have progress : ∀ steps, steps ≤ ((RunState.advance problem)^[steps] state).taken := by
    intro steps
    induction steps with
    | zero => exact Nat.zero_le _
    | succ steps induction =>
        have unfinished : ¬ ((RunState.advance problem)^[steps] state).isFinished = true :=
          fun finished => endless ⟨steps, finished⟩
        rw [Function.iterate_succ_apply', advance_taken unfinished]
        exact Nat.succ_le_succ induction
  have later := valid.iterate indexed wellFiled (limit + 1)
  have size := bounded _ later
  have taken := progress (limit + 1)
  have inside := later.sound.taken_le
  omega

end Run

/-! ## What a finished run holds -/

section Finished

variable {problem : Problem} {state : RunState}

theorem lt_taken_of_finished (finished : state.isFinished = true) {id : DerivationId}
    {derivation : Derivation}
    (found : state.table.derivation? id = some derivation) : id < state.taken := by
  have size : state.table.size ≤ state.taken := by
    simpa [isFinished] using finished
  exact Nat.lt_of_lt_of_le (DerivationTable.lt_size_of_derivation? found) size

/-- A finished run holds every derivable derivation, and every edge that it uses
is on record for a derivation that it goes back to. -/
theorem Valid.exists_of_derives (valid : state.Valid problem)
    (finished : state.isFinished = true) {derivation : Derivation} {used : List Edge}
    (derives : problem.Derives derivation used) :
    ∃ id, state.table.derivation? id = some derivation ∧
      ∀ provenance, state.provenance = some provenance → ∀ edge ∈ used,
        ∃ origin, provenance.GoesBackTo id origin ∧ edge ∈ provenance.edges.row origin := by
  induction derives with
  | @made bodies edge derivation used _ makes consistent induction =>
      have placed : ∀ body ∈ bodies, ∃ id, state.table.derivation? id = some body := by
        intro body member
        obtain ⟨position, found⟩ := List.mem_iff_getElem?.mp member
        obtain ⟨id, place, _⟩ := induction position body found
        exact ⟨id, place⟩
      obtain ⟨ids, holds⟩ := DerivationTable.exists_places placed
      have taken : ∀ id ∈ ids, id < state.taken := by
        intro id member
        obtain ⟨body, _, place⟩ := holds.of_mem member
        exact lt_taken_of_finished finished place
      obtain ⟨id, place, recorded⟩ :=
        valid.saturated ids bodies edge derivation holds taken makes consistent
      refine ⟨id, place, ?_⟩
      intro provenance known usedEdge member
      obtain ⟨edges, antecedents⟩ := recorded provenance known
      rcases List.mem_append.mp member with own | inherited
      · exact ⟨id, .refl, edges usedEdge (by simpa using own)⟩
      · obtain ⟨position, inside, usedMember⟩ := List.mem_flatMap.mp inherited
        have bodyFound := List.getElem?_eq_getElem (List.mem_range.mp inside)
        obtain ⟨bodyId, bodyPlace, origins⟩ := induction position _ bodyFound
        obtain ⟨origin, back, edgeMember⟩ := origins provenance known usedEdge usedMember
        obtain ⟨sameId, idFound, samePlace⟩ := holds.of_body bodyFound
        have same := valid.sound.coherent.place_unique bodyPlace samePlace
        subst same
        rcases antecedents bodyId (List.mem_of_getElem? idFound) with rfl | step
        · exact ⟨origin, back, edgeMember⟩
        · exact ⟨origin, .head step back, edgeMember⟩

end Finished

end RunState

end GrammarReach
