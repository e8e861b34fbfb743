import GrammarReach.Proofs.Bracket.AutomatonStates

/-!
# Languages of bracket automata

An automaton reads the brackets of its family along a word.  The taint automaton follows
opening brackets that are closed at once, and loses count where two brackets open in a row:
from there on it accepts whatever comes.  The automaton of a value flow is a table of six
states.
-/

namespace GrammarReach

namespace BracketAutomaton

/-- Reading a word can lead from the first state to the last one. -/
inductive Reads (automaton : BracketAutomaton) : Nat → List Label → Nat → Prop where
  | nil (state : Nat) : Reads automaton state [] state
  | cons {label : Label} {word : List Label} {first next last : Nat} :
      (first, next) ∈ automaton.movesFor (automaton.family.bracketOf? label) →
      Reads automaton next word last → Reads automaton first (label :: word) last

/-- Reading the word from the state can end in an accepting state. -/
def AcceptsFrom (automaton : BracketAutomaton) (state : Nat) (word : List Label) : Prop :=
  ∃ last, automaton.Reads state word last ∧
    accepts automaton.analysis automaton.states last = true

section Words

variable {automaton : BracketAutomaton} {state : Nat} {label : Label} {word : List Label}

theorem acceptsFrom_nil :
    automaton.AcceptsFrom state [] ↔ accepts automaton.analysis automaton.states state = true := by
  constructor
  · rintro ⟨last, reads, accepted⟩
    cases reads
    exact accepted
  · exact fun accepted => ⟨state, .nil state, accepted⟩

theorem acceptsFrom_cons :
    automaton.AcceptsFrom state (label :: word) ↔
      ∃ next, (state, next) ∈ automaton.movesFor (automaton.family.bracketOf? label) ∧
        automaton.AcceptsFrom next word := by
  constructor
  · rintro ⟨last, reads, accepted⟩
    cases reads with
    | cons move rest => exact ⟨_, move, last, rest, accepted⟩
  · rintro ⟨next, move, last, rest, accepted⟩
    exact ⟨last, .cons move rest, accepted⟩

theorem acceptsFrom_cons_other (other : automaton.family.bracketOf? label = none) :
    automaton.AcceptsFrom state (label :: word) ↔
      ∃ next, (state, next) ∈ automaton.otherMoves ∧ automaton.AcceptsFrom next word := by
  rw [acceptsFrom_cons, other]
  rfl

end Words

/-- Every opening bracket is closed at once by one that suits it, up to the place, if there
is one, where two brackets open in a row.  Behind it anything may follow. -/
inductive ClosedAtOnce (suits : Nat → Nat → Prop) : List PassingBracket → Prop where
  | nil : ClosedAtOnce suits []
  | pair {id other : Nat} {rest : List PassingBracket} :
      suits id other → ClosedAtOnce suits rest →
      ClosedAtOnce suits (⟨id, true⟩ :: ⟨other, false⟩ :: rest)
  | deeper (id other : Nat) (rest : List PassingBracket) :
      ClosedAtOnce suits (⟨id, true⟩ :: ⟨other, true⟩ :: rest)

namespace ClosedAtOnce

variable {suits : Nat → Nat → Prop} {id other : Nat} {rest : List PassingBracket}

end ClosedAtOnce

/-! ## The taint automaton -/

section Taint

variable {automaton : BracketAutomaton} (taint : automaton.analysis = .taint)

include taint

end Taint

/-! ## The automaton of a value flow -/

/-- The state table of a value flow, with a row for opening brackets, one for closing
brackets and one for other labels. -/
def flowTable (state : Nat) : Option PassingBracket → Option Nat
  | some ⟨_, true⟩ => [some 3, some 3, some 3, some 4, some 4, some 4][state]?.join
  | some ⟨_, false⟩ => [none, none, none, some 2, some 5, some 5][state]?.join
  | none => [none, some 1, some 1, some 3, some 4, some 4][state]?.join

section ValueFlow

variable {automaton : BracketAutomaton} (flow : automaton.analysis = .valueFlow)

include flow

theorem accepts_iff_of_flow {state : Nat} :
    accepts automaton.analysis automaton.states state = true ↔ state = 2 ∨ state = 5 := by
  rw [flow]
  simp [accepts]

theorem mem_movesFor_of_flow {bracket : Option PassingBracket} {state next : Nat} :
    (state, next) ∈ automaton.movesFor bracket ↔ flowTable state bracket = some next := by
  match bracket, state with
  | none, 0 | none, 1 | none, 2 | none, 3 | none, 4 | none, 5 =>
      simp [movesFor, otherMoves, flow, flowTable, eq_comm]
  | none, state + 6 => simp [movesFor, otherMoves, flow, flowTable]
  | some ⟨id, true⟩, 0 | some ⟨id, true⟩, 1 | some ⟨id, true⟩, 2 | some ⟨id, true⟩, 3
  | some ⟨id, true⟩, 4 | some ⟨id, true⟩, 5 =>
      simp [movesFor, openMoves, flow, flowTable, eq_comm]
  | some ⟨id, true⟩, state + 6 => simp [movesFor, openMoves, flow, flowTable]
  | some ⟨id, false⟩, 0 | some ⟨id, false⟩, 1 | some ⟨id, false⟩, 2 | some ⟨id, false⟩, 3
  | some ⟨id, false⟩, 4 | some ⟨id, false⟩, 5 =>
      simp [movesFor, closeMoves, flow, flowTable, eq_comm]
  | some ⟨id, false⟩, state + 6 => simp [movesFor, closeMoves, flow, flowTable]

theorem acceptsFrom_cons_flow {state : Nat} {label : Label} {word : List Label} :
    automaton.AcceptsFrom state (label :: word) ↔
      ∃ next, flowTable state (automaton.family.bracketOf? label) = some next ∧
        automaton.AcceptsFrom next word := by
  simp only [acceptsFrom_cons, mem_movesFor_of_flow flow]

private theorem acceptsFrom_iff_of_sameRow {strong weak : Nat} {word : List Label}
    (sameRow : ∀ bracket, flowTable strong bracket = flowTable weak bracket)
    (accepting : strong = 2 ∨ strong = 5) :
    automaton.AcceptsFrom strong word ↔ word = [] ∨ automaton.AcceptsFrom weak word := by
  cases word with
  | nil => simp [acceptsFrom_nil, accepts_iff_of_flow flow, accepting]
  | cons label word => simp [acceptsFrom_cons_flow flow, sameRow]

theorem acceptsFrom_two_iff {word : List Label} :
    automaton.AcceptsFrom 2 word ↔ word = [] ∨ automaton.AcceptsFrom 1 word := by
  apply acceptsFrom_iff_of_sameRow flow _ (by decide)
  rintro (_ | ⟨_, _ | _⟩) <;> rfl

theorem acceptsFrom_five_iff {word : List Label} :
    automaton.AcceptsFrom 5 word ↔ word = [] ∨ automaton.AcceptsFrom 4 word := by
  apply acceptsFrom_iff_of_sameRow flow _ (by decide)
  rintro (_ | ⟨_, _ | _⟩) <;> rfl

end ValueFlow

/-! ## Other labels -/

/-- A word that is accepted is accepted without one of its other labels. -/
theorem AcceptsFrom.of_cons_other {automaton : BracketAutomaton} {state : Nat} {label : Label}
    {word : List Label} (accepted : automaton.AcceptsFrom state (label :: word))
    (other : automaton.family.bracketOf? label = none) : automaton.AcceptsFrom state word := by
  cases analysis : automaton.analysis with
  | taint =>
      obtain ⟨next, move, rest⟩ := (acceptsFrom_cons_other other).mp accepted
      obtain ⟨same, _, pair⟩ := (mem_otherMoves analysis).mp move
      obtain ⟨rfl, rfl⟩ := Prod.mk.inj pair
      exact rest
  | valueFlow =>
      obtain ⟨next, move, rest⟩ := (acceptsFrom_cons_flow analysis).mp accepted
      rw [other] at move
      match state, move with
      | 1, same | 3, same | 4, same => exact Option.some.inj same ▸ rest
      | 2, same => exact (acceptsFrom_two_iff analysis).mpr (.inr (Option.some.inj same ▸ rest))
      | 5, same => exact (acceptsFrom_five_iff analysis).mpr (.inr (Option.some.inj same ▸ rest))

/-! ## The languages -/

/-- For taint every bracket is closed at once by its partner, up to two that open in a row.
For a value flow the word leads through the state table from `0` to `2` or `5`. -/
def Follows (automaton : BracketAutomaton) (word : List Label) : Prop :=
  match automaton.analysis with
  | .taint => ClosedAtOnce Eq (automaton.family.bracketsOf word)
  | .valueFlow => ∃ last, (word.map automaton.family.bracketOf?).foldlM flowTable 0 = some last ∧
      (last = 2 ∨ last = 5)

end BracketAutomaton

end GrammarReach
