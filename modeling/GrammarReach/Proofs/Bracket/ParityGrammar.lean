import GrammarReach.Proofs.Bracket.MatchingGrammars
import Mathlib.Data.Nat.Init

/-!
# The parity grammar

The parity grammar gives every word the state of its passing brackets as a name.
States combine along words, and a word whose passing brackets match as well has
no state or the state in which everything cancels.  So the grammar derives all
words that match both families, and only words that match its own.
-/

namespace GrammarReach

namespace BracketLanguage

namespace ParityState

/-! ## States -/

theorem isWordName_name (state : ParityState) : IsWordName state.name := by
  simp [IsWordName, name, Grammar.startName]

theorem xorParities_assoc (first second third : List Bool) :
    (first.zipWith xor second).zipWith xor third =
      first.zipWith xor (second.zipWith xor third) := by
  induction first generalizing second third with
  | nil => simp
  | cons bit first induction =>
      cases second with
      | nil => simp
      | cons otherBit second =>
          cases third with
          | nil => simp
          | cons lastBit third => simp [induction]

theorem xorParities_replicate (parities : List Bool) :
    parities.zipWith xor (List.replicate parities.length false) = parities := by
  induction parities with
  | nil => rfl
  | cons bit parities induction => simp [List.replicate_succ, induction]

theorem replicate_xorParities (parities : List Bool) :
    (List.replicate parities.length false).zipWith xor parities = parities := by
  induction parities with
  | nil => rfl
  | cons bit parities induction => simp [List.replicate_succ, induction]

theorem xorParities_self (parities : List Bool) :
    parities.zipWith xor parities = List.replicate parities.length false := by
  induction parities with
  | nil => rfl
  | cons bit parities induction => simp [List.replicate_succ]

theorem join_assoc (first second third : ParityState) :
    (first.join second).join third = first.join (second.join third) := by
  simp only [join, xorParities_assoc]

/-- The state of a word whose parts have states; a word without passing brackets
has none. -/
def combine : Option ParityState → Option ParityState → Option ParityState
  | none, right => right
  | left, none => left
  | some left, some right => some (left.join right)

@[simp] theorem combine_none_left (state : Option ParityState) :
    combine none state = state := rfl

@[simp] theorem combine_none_right (state : Option ParityState) :
    combine state none = state := by
  cases state <;> rfl

@[simp] theorem combine_some (left right : ParityState) :
    combine (some left) (some right) = some (left.join right) := rfl

theorem combine_assoc (first second third : Option ParityState) :
    combine (combine first second) third = combine first (combine second third) := by
  cases first with
  | none => simp
  | some first =>
      cases second with
      | none => simp
      | some second =>
          cases third with
          | none => simp
          | some third => simp [join_assoc]

/-- The state has one parity for each class. -/
def Fits (classes : Nat) (state : ParityState) : Prop :=
  state.odd.length = classes

theorem fits_single (classes index : Nat) (closesFirst opensLast : Bool) :
    (single classes index closesFirst opensLast).Fits classes := by
  simp [Fits, single]

theorem Fits.join {classes : Nat} {left right : ParityState} (first : left.Fits classes)
    (second : right.Fits classes) : (left.join right).Fits classes := by
  unfold Fits at *
  simp [ParityState.join, List.length_zipWith, first, second]

private theorem length_odd_single (classes index : Nat) (closesFirst opensLast : Bool) :
    (single classes index closesFirst opensLast).odd.length = classes :=
  fits_single classes index closesFirst opensLast

theorem single_join_cancelled (classes index : Nat) (closesFirst opensLast : Bool) :
    (single classes index closesFirst opensLast).join (cancelled classes) =
      single classes index closesFirst false := by
  have parities := xorParities_replicate (single classes index closesFirst opensLast).odd
  rw [length_odd_single] at parities
  simp only [join, cancelled, parities]
  rfl

theorem cancelled_join_single (classes index : Nat) (closesFirst opensLast : Bool) :
    (cancelled classes).join (single classes index closesFirst opensLast) =
      single classes index false opensLast := by
  have parities := replicate_xorParities (single classes index closesFirst opensLast).odd
  rw [length_odd_single] at parities
  simp only [join, cancelled, parities]
  rfl

theorem single_join_single (classes index : Nat) (opensLast closesFirst : Bool) :
    (single classes index false opensLast).join (single classes index closesFirst false) =
      cancelled classes := by
  have parities := xorParities_self (single classes index false false).odd
  rw [length_odd_single] at parities
  exact congrArg (fun odd => ParityState.mk odd false false) parities

theorem mem_all_iff {classes : Nat} {state : ParityState} :
    state ∈ all classes ↔
      ∃ number < 2 ^ (classes % Text.wordBits), state.odd = classBits classes number := by
  obtain ⟨odd, closesFirst, opensLast⟩ := state
  rw [all, List.mem_flatMap, Nat.one_shiftLeft]
  constructor
  · rintro ⟨number, below, flags⟩
    obtain ⟨_, _, same⟩ := List.mem_map.mp flags
    exact ⟨number, List.mem_range.mp below, (congrArg ParityState.odd same).symm⟩
  · rintro ⟨number, below, rfl⟩
    refine ⟨number, List.mem_range.mpr below, ?_⟩
    refine List.mem_map.mpr ⟨(closesFirst, opensLast), ?_, rfl⟩
    cases closesFirst <;> cases opensLast <;> simp

theorem fits_of_mem_all {classes : Nat} {state : ParityState} (member : state ∈ all classes) :
    state.Fits classes := by
  obtain ⟨number, _, digits⟩ := mem_all_iff.mp member
  simp [Fits, digits, classBits]

theorem cancelled_mem_all (classes : Nat) : cancelled classes ∈ all classes := by
  refine mem_all_iff.mpr ⟨0, Nat.two_pow_pos _, ?_⟩
  simp [cancelled, classBits]

theorem join_mem_all {classes : Nat} {left right : ParityState} (first : left ∈ all classes)
    (second : right ∈ all classes) : left.join right ∈ all classes := by
  obtain ⟨leftNumber, leftBelow, leftDigits⟩ := mem_all_iff.mp first
  obtain ⟨rightNumber, rightBelow, rightDigits⟩ := mem_all_iff.mp second
  refine mem_all_iff.mpr
    ⟨leftNumber ^^^ rightNumber, Nat.xor_lt_two_pow leftBelow rightBelow, ?_⟩
  simp [join, leftDigits, rightDigits, classBits, List.zipWith_map, List.zipWith_self]

/-- A class has a state of its own when its place in a word is below what the shift by the
number of classes leaves. -/
theorem single_mem_all_iff {classes index : Nat} (inside : index < classes)
    {closesFirst opensLast : Bool} :
    single classes index closesFirst opensLast ∈ all classes ↔
      index % Text.wordBits < classes % Text.wordBits := by
  rw [mem_all_iff]
  constructor
  · rintro ⟨number, below, digits⟩
    by_contra above
    have place : index % Text.wordBits < classes :=
      Nat.lt_of_le_of_lt (Nat.mod_le _ _) inside
    have digit := congrArg (fun odd => odd[index % Text.wordBits]?) digits
    have zero : number.testBit (index % Text.wordBits) = false :=
      Nat.testBit_lt_two_pow (Nat.lt_of_lt_of_le below
        (Nat.pow_le_pow_right Nat.two_pos (Nat.le_of_not_lt above)))
    simp [single, classBits, place, zero] at digit
  · intro below
    refine ⟨2 ^ (index % Text.wordBits), Nat.pow_lt_pow_right (by decide) below, ?_⟩
    simp [single, classBits, Nat.testBit_two_pow, eq_comm, Bool.beq_eq_decide_eq]

/-- The state, if there is one, is a state of the grammar. -/
def Listed (classes : Nat) (state : Option ParityState) : Prop :=
  ∀ known, state = some known → known ∈ all classes

theorem listed_none (classes : Nat) : Listed classes none := by
  rintro _ ⟨⟩

theorem Listed.combine {classes : Nat} {left right : Option ParityState}
    (first : Listed classes left) (second : Listed classes right) :
    Listed classes (combine left right) := by
  cases left with
  | none => exact second
  | some left =>
      cases right with
      | none => exact first
      | some right =>
          rintro _ ⟨⟩
          exact join_mem_all (first left rfl) (second right rfl)

end ParityState

/-! ## States of words -/

section States

open ParityState

variable (passing : BracketFamily) (passingIds : List Nat) (classes : Nat)

/-- The class of a passing id. -/
def classOf (id : Nat) : Nat :=
  (ascending passingIds).idxOf id % classes

/-- The state of one label, if it is a passing bracket. -/
def labelState (label : Label) : Option ParityState :=
  match BracketLabel.read label with
  | .opening family id =>
      if family = passing then some (single classes (classOf passingIds classes id) false true)
      else none
  | .closing family id =>
      if family = passing then some (single classes (classOf passingIds classes id) true false)
      else none
  | _ => none

/-- The state of the passing brackets of a word, if there are any. -/
def wordState : List Label → Option ParityState
  | [] => none
  | label :: rest => combine (labelState passing passingIds classes label) (wordState rest)

/-- The name of the words with a state. -/
def stateName : Option ParityState → Nonterminal
  | none => uncountedName
  | some state => state.name

variable {passing passingIds classes}

theorem wordState_append (left right : List Label) :
    wordState passing passingIds classes (left ++ right) =
      combine (wordState passing passingIds classes left)
        (wordState passing passingIds classes right) := by
  induction left with
  | nil => rfl
  | cons label left induction => simp [wordState, induction, combine_assoc]

theorem labelState_of_foreign {label : Label} (foreign : passing.owns label = false) :
    labelState passing passingIds classes label = none := by
  unfold BracketFamily.owns at foreign
  unfold labelState
  cases reading : BracketLabel.read label with
  | epsilon => rfl
  | normal => rfl
  | other label => rfl
  | opening family id =>
      rw [reading] at foreign
      exact if_neg (by simpa [BracketLabel.bracket?] using foreign)
  | closing family id =>
      rw [reading] at foreign
      exact if_neg (by simpa [BracketLabel.bracket?] using foreign)

theorem labelState_openLabel {id : Nat} (below : id < Text.halfWordBound) :
    labelState passing passingIds classes (passing.openLabel id) =
      some (single classes (classOf passingIds classes id) false true) := by
  simp [labelState, below]

theorem labelState_closeLabel {id : Nat} (below : id < Text.halfWordBound) :
    labelState passing passingIds classes (passing.closeLabel id) =
      some (single classes (classOf passingIds classes id) true false) := by
  simp [labelState, below]

theorem labelState_fits {label : Label} {state : ParityState}
    (found : labelState passing passingIds classes label = some state) :
    state.Fits classes := by
  unfold labelState at found
  split at found
  · split at found
    · cases found
      exact fits_single _ _ _ _
    · cases found
  · split at found
    · cases found
      exact fits_single _ _ _ _
    · cases found
  · cases found

theorem wordState_fits {word : List Label} {state : ParityState}
    (found : wordState passing passingIds classes word = some state) :
    state.Fits classes := by
  induction word generalizing state with
  | nil => cases found
  | cons label word induction =>
      unfold wordState at found
      cases first : labelState passing passingIds classes label with
      | none =>
          rw [first] at found
          exact induction found
      | some firstState =>
          cases rest : wordState passing passingIds classes word with
          | none =>
              rw [first, rest] at found
              cases found
              exact labelState_fits first
          | some restState =>
              rw [first, rest] at found
              cases found
              exact (labelState_fits first).join (induction rest)

theorem wordState_listed {word : List Label}
    (listed : ∀ label ∈ word, Listed classes (labelState passing passingIds classes label)) :
    Listed classes (wordState passing passingIds classes word) := by
  induction word with
  | nil => exact listed_none classes
  | cons label word induction =>
      exact (listed label List.mem_cons_self).combine
        (induction fun other member => listed other (List.mem_cons_of_mem _ member))

theorem labelState_listed (positive : 0 < classes) (within : classes < Text.wordBits)
    (label : Label) : Listed classes (labelState passing passingIds classes label) := by
  have single_listed : ∀ id closesFirst opensLast,
      single classes (classOf passingIds classes id) closesFirst opensLast ∈ all classes := by
    intro id closesFirst opensLast
    have inside : classOf passingIds classes id < classes := Nat.mod_lt _ positive
    refine (single_mem_all_iff inside).mpr ?_
    rwa [Nat.mod_eq_of_lt within, Nat.mod_eq_of_lt (Nat.lt_trans inside within)]
  intro state found
  unfold labelState at found
  split at found
  · split at found
    · cases found
      exact single_listed _ _ _
    · cases found
  · split at found
    · cases found
      exact single_listed _ _ _
    · cases found
  · cases found

theorem wordState_of_matched {word : List Label} (matched : passing.Matched word) :
    wordState passing passingIds classes word = none ∨
      wordState passing passingIds classes word = some (cancelled classes) := by
  induction matched with
  | nil => exact Or.inl rfl
  | pass foreign _ induction =>
      simpa only [wordState, labelState_of_foreign foreign, combine_none_left] using induction
  | @wrap id inner rest below _ _ innerCancels restCancels =>
      right
      let closed := single classes (classOf passingIds classes id) true false
      have closes : combine (some closed) (wordState passing passingIds classes rest) =
          some closed := by
        rcases restCancels with behind | behind
        · rw [behind, combine_none_right]
        · rw [behind, combine_some, single_join_cancelled]
      rw [wordState, wordState_append, wordState, labelState_openLabel below,
        labelState_closeLabel below, closes]
      rcases innerCancels with inside | inside
      · rw [inside, combine_none_left, combine_some, single_join_single]
      · rw [inside, combine_some, cancelled_join_single, combine_some, single_join_single]

end States

/-! ## The rules of the parity grammar -/

theorem mem_insertAscending {id other : Nat} {ids : List Nat} :
    other ∈ insertAscending id ids ↔ other = id ∨ other ∈ ids := by
  induction ids with
  | nil => simp [insertAscending]
  | cons first rest induction =>
      unfold insertAscending
      split
      · simp
      · simp only [List.mem_cons, induction]
        exact or_left_comm

theorem mem_ascending {id : Nat} {ids : List Nat} : id ∈ ascending ids ↔ id ∈ ids := by
  induction ids with
  | nil => exact Iff.rfl
  | cons first rest induction =>
      change id ∈ insertAscending first (ascending rest) ↔ _
      rw [mem_insertAscending, induction, List.mem_cons]

theorem isWordName_uncountedName : IsWordName uncountedName := by
  decide

section Parity

open ParityState

/-- A parity grammar over known ids matches families that do not pass. -/
theorem matching_parity_of_known {ids : BracketIds} {families : BracketFamily → Prop}
    {family passing : BracketFamily} {own passingIds : List Nat} {classCount : Nat}
    (ownKnown : ∀ id ∈ own, id ∈ ids.ofFamily family)
    (passingKnown : ∀ id ∈ passingIds, id ∈ ids.ofFamily passing) (free : ¬ families passing) :
    MatchingGrammar (parity family own passing passingIds classCount) ids families := by
  have start := isWordName_startName
  have uncounted := isWordName_uncountedName
  apply MatchingGrammar.unions
  simp only [List.forall_mem_cons, List.not_mem_nil, false_implies, implies_true, and_true]
  refine ⟨?_, ?_, ?_, ?_, ?_, ?_, ?_, ?_⟩
  · exact matching_matchedPairs ownKnown
  · exact matching_neutralLetters uncounted
  · refine .unions fun grammar member => ?_
    obtain ⟨⟨id, place⟩, placed, rfl⟩ := List.mem_map.mp member
    have known := passingKnown id (mem_ascending.mp (List.fst_mem_of_mem_zipIdx placed))
    have foreign : ∀ owner, families owner → passing ≠ owner := by
      rintro owner matched rfl
      exact free matched
    refine .append (matching_letter (isWordName_name _) ?_ ?_)
      (matching_letter (isWordName_name _) ?_ ?_)
    · exact Or.inl (Or.inr ⟨passing, id, known, Or.inr rfl⟩)
    · intro owner matched
      simp [BracketFamily.owns_closeLabel, foreign owner matched]
    · exact Or.inl (Or.inr ⟨passing, id, known, Or.inl rfl⟩)
    · intro owner matched
      simp [BracketFamily.owns_openLabel, foreign owner matched]
  · refine matching_ifAny (.unions fun grammar member => ?_)
    rcases List.mem_cons.mp member with rfl | named
    · exact matching_wrap family uncounted uncounted
    · obtain ⟨⟨state, name⟩, isNamed, rfl⟩ := List.mem_map.mp named
      obtain ⟨_, _, same⟩ := List.mem_map.mp isNamed
      cases same
      exact matching_wrap family (isWordName_name state) (isWordName_name state)
  · exact matching_sequence uncounted uncounted uncounted
  · refine .unions fun grammar member => ?_
    obtain ⟨⟨left, leftName⟩, isNamed, joins⟩ := List.mem_flatMap.mp member
    obtain ⟨_, _, same⟩ := List.mem_map.mp isNamed
    cases same
    have word := isWordName_name left
    rcases List.mem_cons.mp joins with rfl | joins
    · exact matching_sequence word word uncounted
    · rcases List.mem_cons.mp joins with rfl | joins
      · exact matching_sequence word uncounted word
      · obtain ⟨⟨right, rightName⟩, rightNamed, rfl⟩ := List.mem_map.mp joins
        obtain ⟨_, _, same⟩ := List.mem_map.mp rightNamed
        cases same
        exact matching_sequence (isWordName_name _) word (isWordName_name right)
  · exact matching_rename start uncounted
  · exact matching_rename start (isWordName_name _)

variable (family : BracketFamily) (ids : BracketIds) (classCount : Nat)

/-- The parity grammar of a family with all given ids. -/
abbrev parityOver : Grammar :=
  parity family (ids.ofFamily family) family.other (ids.ofFamily family.other) classCount

theorem matching_parity :
    MatchingGrammar (parityOver family ids classCount) ids (· = family) :=
  matching_parity_of_known (fun _ member => member) (fun _ member => member) family.other_ne

/-- The state that the parity grammar keeps of a word. -/
def parityState (word : List Label) : Option ParityState :=
  wordState family.other (ids.ofFamily family.other) (max classCount 1) word

/-- The label is known, and the grammar has a state for it if it needs one. -/
structure Readable (label : Label) : Prop where
  covered : ids.Covers label ∨ label = Grammar.epsilon
  listed : Listed (max classCount 1)
    (labelState family.other (ids.ofFamily family.other) (max classCount 1) label)

private theorem mem_named {state : ParityState} {classes : Nat} (member : state ∈ all classes) :
    (state, state.name) ∈ (all classes).map fun state => (state, state.name) :=
  List.mem_map.mpr ⟨state, member, rfl⟩

private theorem letter_mem_parity (bounded : ids.Bounded) {label : Label}
    (covers : ids.Covers label ∨ label = Grammar.epsilon)
    (foreign : family.owns label = false) :
    (⟨stateName (parityState family ids classCount [label]), label⟩ : BasicRule) ∈
      (parityOver family ids classCount).basic := by
  have cases : (label = normalLabel ∨ ∃ id ∈ ids.ofFamily family.other,
      label = family.other.openLabel id ∨ label = family.other.closeLabel id) ∨
        label = Grammar.epsilon :=
    covers.imp_left fun known => known.foreign bounded foreign
  rcases cases with (rfl | ⟨id, member, role⟩) | rfl
  · refine mem_basic_unions.mpr ⟨_, .tail _ (.head _), ?_⟩
    exact .tail _ (.head _)
  · have below := bounded _ id member
    have placed : (id, (ascending (ids.ofFamily family.other)).idxOf id) ∈
        (ascending (ids.ofFamily family.other)).zipIdx := by
      rw [List.mem_zipIdx_iff_getElem?]
      exact List.getElem?_idxOf (mem_ascending.mpr member)
    refine mem_basic_unions.mpr ⟨_, .tail _ (.tail _ (.head _)), ?_⟩
    refine mem_basic_unions.mpr ⟨_, List.mem_map.mpr ⟨_, placed, rfl⟩, ?_⟩
    rcases role with rfl | rfl
    · simp only [parityState, wordState, labelState_openLabel below, combine_none_right]
      exact .tail _ (.head _)
    · simp only [parityState, wordState, labelState_closeLabel below, combine_none_right]
      exact .head _
  · refine mem_basic_unions.mpr ⟨_, .tail _ (.head _), ?_⟩
    exact .head _

private theorem sequence_mem_parity {left right : List Label}
    (leftListed : Listed (max classCount 1) (parityState family ids classCount left))
    (rightListed : Listed (max classCount 1) (parityState family ids classCount right)) :
    sequenceRule (stateName (parityState family ids classCount (left ++ right)))
        (stateName (parityState family ids classCount left))
        (stateName (parityState family ids classCount right)) ∈
      (parityOver family ids classCount).concatenate := by
  simp only [parityState, wordState_append] at leftListed rightListed ⊢
  cases leftState : wordState family.other (ids.ofFamily family.other) (max classCount 1)
      left with
  | none =>
      cases rightState : wordState family.other (ids.ofFamily family.other)
          (max classCount 1) right with
      | none =>
          refine mem_concatenate_unions.mpr
            ⟨_, .tail _ (.tail _ (.tail _ (.tail _ (.head _)))), ?_⟩
          exact .head _
      | some state =>
          refine mem_concatenate_unions.mpr
            ⟨_, .tail _ (.tail _ (.tail _ (.tail _ (.tail _ (.head _))))), ?_⟩
          refine mem_concatenate_unions.mpr
            ⟨_, List.mem_flatMap.mpr ⟨_, mem_named (rightListed _ rightState),
              .tail _ (.head _)⟩, ?_⟩
          exact .head _
  | some state =>
      refine mem_concatenate_unions.mpr
        ⟨_, .tail _ (.tail _ (.tail _ (.tail _ (.tail _ (.head _))))), ?_⟩
      cases rightState : wordState family.other (ids.ofFamily family.other)
          (max classCount 1) right with
      | none =>
          refine mem_concatenate_unions.mpr
            ⟨_, List.mem_flatMap.mpr ⟨_, mem_named (leftListed _ leftState), .head _⟩, ?_⟩
          exact .head _
      | some other =>
          refine mem_concatenate_unions.mpr
            ⟨_, List.mem_flatMap.mpr ⟨_, mem_named (leftListed _ leftState),
              .tail _ (.tail _ (List.mem_map.mpr
                ⟨_, mem_named (rightListed _ rightState), rfl⟩))⟩, ?_⟩
          exact .head _

private theorem wrap_mem_parity (bounded : ids.Bounded) {id : Nat} {inner : List Label}
    (listed : Listed (max classCount 1) (parityState family ids classCount inner))
    (covers : ids.Covers (family.openLabel id)) :
    wrapRule (stateName (parityState family ids classCount
          (family.openLabel id :: (inner ++ [family.closeLabel id]))))
        (stateName (parityState family ids classCount inner)) family ∈
      (parityOver family ids classCount).concatenate := by
  have foreign : ∀ label, label = family.openLabel id ∨ label = family.closeLabel id →
      family.other.owns label = false := by
    rintro label (rfl | rfl)
    · simp [BracketFamily.owns_openLabel, family.other_ne.symm]
    · simp [BracketFamily.owns_closeLabel, family.other_ne.symm]
  simp only [parityState, wordState, wordState_append, combine_none_left,
    combine_none_right, labelState_of_foreign (foreign _ (Or.inl rfl)),
    labelState_of_foreign (foreign _ (Or.inr rfl))]
  refine mem_concatenate_unions.mpr ⟨_, .tail _ (.tail _ (.tail _ (.head _))), ?_⟩
  rw [ifAny_of_mem (covers.mem_of_open bounded)]
  cases innerState : wordState family.other (ids.ofFamily family.other)
      (max classCount 1) inner with
  | none => exact mem_concatenate_unions.mpr ⟨_, .head _, .head _⟩
  | some state =>
      exact mem_concatenate_unions.mpr
        ⟨_, .tail _ (List.mem_map.mpr ⟨_, mem_named (listed _ innerState), rfl⟩),
          .head _⟩

theorem parityState_listed {word : List Label}
    (readable : ∀ label ∈ word, Readable family ids classCount label) :
    Listed (max classCount 1) (parityState family ids classCount word) :=
  wordState_listed fun label member => (readable label member).listed

/-- The parity grammar derives all matched words over its ids and epsilon for which it has
states, under the name of their state. -/
theorem derivesMatched_parity (bounded : ids.Bounded) :
    DerivesMatched (parityOver family ids classCount) family (Readable family ids classCount)
      fun word => stateName (parityState family ids classCount word) where
  empty := by
    refine mem_basic_unions.mpr ⟨_, .tail _ (.head _), ?_⟩
    exact .head _
  letter _ readable foreign :=
    letter_mem_parity family ids classCount bounded readable.covered foreign
  sequence left right readable :=
    sequence_mem_parity family ids classCount
      (parityState_listed family ids classCount fun label member =>
        readable label (List.mem_append_left _ member))
      (parityState_listed family ids classCount fun label member =>
        readable label (List.mem_append_right _ member))
  wrap id inner readable inside := wrap_mem_parity family ids classCount bounded
    (parityState_listed family ids classCount inside)
    (readable.covered.resolve_right (family.openLabel_ne_epsilon id))
  opener id readable := by
    have covers := readable.covered.resolve_right (family.openLabel_ne_epsilon id)
    exact mem_basic_unions.mpr
      ⟨_, .head _, mem_basic_matchedPairs (covers.mem_of_open bounded)⟩
  pair id readable := by
    have covers := readable.covered.resolve_right (family.openLabel_ne_epsilon id)
    exact mem_insert_unions.mpr
      ⟨_, .head _, mem_insert_matchedPairs (covers.mem_of_open bounded)⟩

/-- Words without passing brackets and words in which these cancel are words of the
start nonterminal. -/
theorem rename_mem_parity {word : List Label}
    (cancels : parityState family ids classCount word = none ∨
      parityState family ids classCount word = some (cancelled (max classCount 1))) :
    renameRule Grammar.startName (stateName (parityState family ids classCount word)) ∈
      (parityOver family ids classCount).concatenate := by
  rcases cancels with none | cancelled
  · rw [none]
    refine mem_concatenate_unions.mpr ⟨_, .tail _ (.tail _ (.tail _ (.tail _ (.tail _
      (.tail _ (.head _)))))), ?_⟩
    exact .head _
  · rw [cancelled]
    refine mem_concatenate_unions.mpr ⟨_, .tail _ (.tail _ (.tail _ (.tail _ (.tail _
      (.tail _ (.tail _ (.head _))))))), ?_⟩
    exact .head _

end Parity

end BracketLanguage

namespace GrammarChoice

open BracketLanguage

/-! ## Both modes -/

section Choice

variable (choice : GrammarChoice) (family : BracketFamily) {ids : BracketIds}

theorem matching_balancing (ids : BracketIds) :
    MatchingGrammar (choice.balancing family ids) ids (· = family) := by
  unfold balancing
  cases choice.mode with
  | classic => exact matching_balanced family ids
  | augmented => exact matching_parity family ids choice.parityClasses

/-- The parity grammar, where it is chosen, has fewer classes than a machine word has digits.
A build that checks its shifts makes the grammar just then. -/
def WithinWord : Prop :=
  choice.mode = .augmented → choice.parityClasses < Text.wordBits

/-- In both modes the grammar of a family derives every walk whose word matches
both families, with all its edges. -/
theorem derives_balancing (within : choice.WithinWord) (bounded : ids.Bounded) {graph : Graph} (built : graph.Built)
    {start stop : Vertex} {path : List Edge} (joins : Joins start path stop)
    (inside : ∀ edge ∈ path, edge ∈ graph.edges) (member : start ∈ graph.vertices)
    (covered : ∀ label ∈ wordOf path, ids.Covers label)
    (matched : ∀ family : BracketFamily, family.Matched (wordOf path)) :
    ∃ used, (choice.balancing family ids).Derives graph Grammar.startName
        [⟨start, stop⟩] used ∧ ∀ edge ∈ path, edge ∈ used := by
  unfold balancing
  cases mode : choice.mode with
  | classic =>
      exact derives_of_matched built (derivesMatched_balanced family ids bounded)
        (matched family) joins inside member covered
  | augmented =>
      have few : max choice.parityClasses 1 < Text.wordBits :=
        Nat.max_lt.mpr ⟨within mode, by decide⟩
      obtain ⟨used, derives, covers⟩ := derives_of_matched built
        (derivesMatched_parity family ids choice.parityClasses bounded) (matched family)
        joins inside member fun label inWord =>
          ⟨.inl (covered label inWord), labelState_listed (by omega) few label⟩
      have renamed := rename_mem_parity family ids choice.parityClasses
        (wordState_of_matched (matched family.other))
      exact ⟨used, derives_rename renamed derives, covers⟩

end Choice

end GrammarChoice

end GrammarReach
