import GrammarReach.Proofs.Bracket.BalancedAnswers
import GrammarReach.Proofs.Bracket.ParityGrammar
import GrammarReach.Proofs.Bracket.PassingBrackets
import Mathlib.Data.List.Sort

/-!
# Answers of the parity grammar

The names of the parity grammar are states of words, different states have different
names, and the state of a word says how many passing brackets of each class there are
and which stand at the ends.  So the answers of the grammar are the spans of balanced
paths along which the passing brackets cancel.
-/

namespace GrammarReach

namespace BracketLanguage

open ParityState

/-! ## Places among the ids -/

theorem ascending_eq_insertionSort (ids : List Nat) :
    ascending ids = ids.insertionSort (· ≤ ·) := by
  have inserts : ∀ (id : Nat) (sorted : List Nat),
      insertAscending id sorted = sorted.orderedInsert (· ≤ ·) id := by
    intro id sorted
    induction sorted with
    | nil => rfl
    | cons first rest induction => rw [insertAscending, List.orderedInsert, induction]
  induction ids with
  | nil => rfl
  | cons id ids induction =>
      change insertAscending id (ascending ids) = _
      rw [inserts, induction, List.insertionSort_cons]

private theorem idxOf_eq_countP {id : Nat} {sorted : List Nat}
    (ordered : sorted.Pairwise (· < ·)) (member : id ∈ sorted) :
    sorted.idxOf id = sorted.countP (· < id) := by
  induction sorted with
  | nil => cases member
  | cons first rest induction =>
      obtain ⟨above, restOrdered⟩ := List.pairwise_cons.mp ordered
      rcases List.mem_cons.mp member with rfl | inRest
      · have none : rest.countP (· < id) = 0 := by
          rw [List.countP_eq_zero]
          intro other otherMember
          simpa using Nat.le_of_lt (above other otherMember)
        simp [none]
      · have less := above id inRest
        rw [List.idxOf_cons_ne rest (Nat.ne_of_lt less), induction restOrdered inRest]
        simp [less]

theorem perm_ascending (ids : List Nat) : (ascending ids).Perm ids := by
  rw [ascending_eq_insertionSort]
  exact List.perm_insertionSort _ ids

theorem idxOf_ascending {ids : List Nat} (distinct : ids.Nodup) {id : Nat}
    (member : id ∈ ids) : (ascending ids).idxOf id = rank ids id := by
  have perm := perm_ascending ids
  have ordered : (ascending ids).Pairwise (· ≤ ·) := by
    rw [ascending_eq_insertionSort]
    exact List.pairwise_insertionSort _ ids
  have strict : (ascending ids).Pairwise (· < ·) :=
    (ordered.and (perm.nodup_iff.mpr distinct)).imp fun both =>
      Nat.lt_of_le_of_ne both.1 both.2
  rw [idxOf_eq_countP strict (perm.mem_iff.mpr member), rank, perm.countP_eq]

private theorem idxOf_of_mem_zipIdx {ids : List Nat} (distinct : ids.Nodup)
    {id place : Nat} (placed : (id, place) ∈ (ascending ids).zipIdx) :
    (ascending ids).idxOf id = place := by
  have sorted : (ascending ids).Nodup := (perm_ascending ids).nodup_iff.mpr distinct
  obtain ⟨inside, found⟩ :=
    List.getElem?_eq_some_iff.mp (List.mem_zipIdx_iff_getElem?.mp placed)
  have here := sorted.idxOf_getElem place inside
  rwa [found] at here

/-! ## Names -/

section Names

variable {classes : Nat}

private theorem toList_name (state : ParityState) :
    state.name.toList = 'S' :: (state.odd.map (fun isOdd => if isOdd then 'i' else 'p') ++
      ((if state.closesFirst then ['c'] else []) ++ if state.opensLast then ['o'] else [])) := by
  obtain ⟨odd, closesFirst, opensLast⟩ := state
  cases closesFirst <;> cases opensLast <;> simp [name, Grammar.startName]

theorem name_injective {left right : ParityState} (leftFits : left.Fits classes)
    (rightFits : right.Fits classes) (same : left.name = right.name) : left = right := by
  have texts := congrArg String.toList same
  rw [toList_name, toList_name] at texts
  have lengths : (left.odd.map fun isOdd => if isOdd then 'i' else 'p').length =
      (right.odd.map fun isOdd => if isOdd then 'i' else 'p').length := by
    rw [List.length_map, List.length_map, leftFits, rightFits]
  obtain ⟨letters, flags⟩ := List.append_inj (List.cons.inj texts).2 lengths
  have parities : left.odd = right.odd := by
    refine List.map_injective_iff.mpr ?_ letters
    intro first second letter
    cases first <;> cases second <;> simp at letter ⊢
  obtain ⟨leftOdd, leftCloses, leftOpens⟩ := left
  obtain ⟨rightOdd, rightCloses, rightOpens⟩ := right
  cases leftCloses <;> cases leftOpens <;> cases rightCloses <;> cases rightOpens <;>
    simp_all

theorem name_ne_startName {state : ParityState} (fits : state.Fits classes)
    (positive : 0 < classes) : state.name ≠ Grammar.startName := by
  intro same
  have texts := congrArg String.toList same
  rw [toList_name] at texts
  cases odd : state.odd with
  | nil =>
      rw [Fits, odd] at fits
      simp only [List.length_nil] at fits
      omega
  | cons isOdd rest => simp [odd, Grammar.startName] at texts

theorem name_ne_uncountedName {state : ParityState} (fits : state.Fits classes)
    (positive : 0 < classes) : state.name ≠ uncountedName := by
  intro same
  have texts := congrArg String.toList same
  rw [toList_name] at texts
  cases odd : state.odd with
  | nil =>
      rw [Fits, odd] at fits
      simp only [List.length_nil] at fits
      omega
  | cons isOdd rest => cases isOdd <;> simp [odd, uncountedName] at texts

end Names

/-- The state, if there is one, has a parity for each class. -/
def FitsIfAny (classes : Nat) (state : Option ParityState) : Prop :=
  ∀ known, state = some known → known.Fits classes

theorem stateName_injective {classes : Nat} (positive : 0 < classes)
    {left right : Option ParityState} (leftFits : FitsIfAny classes left)
    (rightFits : FitsIfAny classes right) (same : stateName left = stateName right) :
    left = right := by
  cases left with
  | none =>
      cases right with
      | none => rfl
      | some right =>
          exact absurd same.symm (name_ne_uncountedName (rightFits right rfl) positive)
  | some left =>
      cases right with
      | none => exact absurd same (name_ne_uncountedName (leftFits left rfl) positive)
      | some right =>
          exact congrArg some (name_injective (leftFits left rfl) (rightFits right rfl) same)

theorem stateName_ne_startName {classes : Nat} (positive : 0 < classes)
    {state : Option ParityState} (fits : FitsIfAny classes state) :
    stateName state ≠ Grammar.startName := by
  cases state with
  | none => decide
  | some state => exact name_ne_startName (fits state rfl) positive

/-! ## States of brackets -/

section Brackets

variable {passing : BracketFamily} {passingIds : List Nat} {classes : Nat}
  {classOf : Nat → Nat}

/-- The state of some passing brackets, if there are any.  Classes with one digit are
counted together. -/
def bracketState (classes : Nat) (classOf : Nat → Nat) :
    List PassingBracket → Option ParityState
  | [] => none
  | first :: rest => some
      { odd := (List.range classes).map fun number => decide (Odd ((first :: rest).countP
          fun bracket => classOf bracket.id % Text.wordBits = number % Text.wordBits))
        closesFirst := !first.opens
        opensLast := ((first :: rest).getLast (List.cons_ne_nil first rest)).opens }

private theorem xor_odd_countP (number : Nat) (first : PassingBracket)
    (rest : List PassingBracket) :
    xor (number % Text.wordBits == classOf first.id % Text.wordBits)
        (decide (Odd (rest.countP fun bracket =>
          classOf bracket.id % Text.wordBits = number % Text.wordBits))) =
      decide (Odd ((first :: rest).countP fun bracket =>
        classOf bracket.id % Text.wordBits = number % Text.wordBits)) := by
  by_cases same : classOf first.id % Text.wordBits = number % Text.wordBits
  · simp [same, ← Nat.not_even_iff_odd, Nat.even_add_one]
  · have different : (number % Text.wordBits == classOf first.id % Text.wordBits) = false := by
      simpa using Ne.symm same
    simp [same, different]

private theorem bracketState_cons (first : PassingBracket) (rest : List PassingBracket) :
    bracketState classes classOf (first :: rest) =
      combine (some (single classes (classOf first.id) (!first.opens) first.opens))
        (bracketState classes classOf rest) := by
  cases rest with
  | nil =>
      simp only [bracketState, combine_none_right, single, ← xor_odd_countP]
      simp
  | cons second rest =>
      simp only [bracketState, combine_some, join, single, ← xor_odd_countP _ _ (second :: rest),
        List.zipWith_map, List.zipWith_self]
      simp

theorem labelState_eq_map (label : Label) :
    labelState passing passingIds classes label = (passing.bracketOf? label).map fun bracket =>
      single classes (BracketLanguage.classOf passingIds classes bracket.id)
        (!bracket.opens) bracket.opens := by
  unfold labelState BracketFamily.bracketOf?
  cases BracketLabel.read label with
  | epsilon => rfl
  | normal => rfl
  | other label => rfl
  | opening family id => by_cases same : family = passing <;> simp [same]
  | closing family id => by_cases same : family = passing <;> simp [same]

theorem wordState_eq_bracketState (word : List Label) :
    wordState passing passingIds classes word =
      bracketState classes (BracketLanguage.classOf passingIds classes)
        (passing.bracketsOf word) := by
  induction word with
  | nil => rfl
  | cons label word induction =>
      rw [wordState, labelState_eq_map, induction]
      cases found : passing.bracketOf? label with
      | none => rw [BracketFamily.bracketsOf_cons_none found, Option.map_none, combine_none_left]
      | some bracket =>
          rw [BracketFamily.bracketsOf_cons_some found, bracketState_cons, Option.map_some]

/-- The labels of a word have states in the grammar when the digits of its passing brackets
are counted. -/
theorem listed_labels_iff (positive : 0 < classes) {word : List Label} :
    (∀ label ∈ word, Listed classes (labelState passing passingIds classes label)) ↔
      ∀ bracket ∈ passing.bracketsOf word,
        BracketLanguage.classOf passingIds classes bracket.id % Text.wordBits <
          classes % Text.wordBits := by
  have counted : ∀ bracket : PassingBracket,
      single classes (BracketLanguage.classOf passingIds classes bracket.id)
          (!bracket.opens) bracket.opens ∈ all classes ↔
        BracketLanguage.classOf passingIds classes bracket.id % Text.wordBits <
          classes % Text.wordBits :=
    fun bracket => single_mem_all_iff (Nat.mod_lt _ positive)
  constructor
  · intro listed bracket member
    obtain ⟨label, inWord, reading⟩ := List.mem_filterMap.mp member
    refine (counted bracket).mp (listed label inWord _ ?_)
    rw [labelState_eq_map, reading, Option.map_some]
  · intro below label inWord state found
    rw [labelState_eq_map] at found
    obtain ⟨bracket, reading, rfl⟩ := Option.map_eq_some_iff.mp found
    exact (counted bracket).mpr
      (below bracket (List.mem_filterMap.mpr ⟨label, inWord, reading⟩))

/-- Brackets without a state and those in the cancelled state are those that cancel by their
digits. -/
theorem bracketState_cancels (below : ∀ id, classOf id < classes)
    (brackets : List PassingBracket) :
    (bracketState classes classOf brackets = none ∨
        bracketState classes classOf brackets = some (cancelled classes)) ↔
      Cancels (fun id => classOf id % Text.wordBits) brackets := by
  cases brackets with
  | nil => exact ⟨fun _ => .nil, fun _ => Or.inl rfl⟩
  | cons first rest =>
      have parities : ((List.range classes).map fun number =>
            decide (Odd ((first :: rest).countP fun bracket =>
              classOf bracket.id % Text.wordBits = number % Text.wordBits))) =
            List.replicate classes false ↔
          ∀ number < classes, Even ((first :: rest).countP fun bracket =>
            classOf bracket.id % Text.wordBits = number % Text.wordBits) := by
        rw [List.eq_replicate_iff]
        simp
      have last := List.getLast?_eq_some_getLast (List.cons_ne_nil first rest)
      simp only [bracketState, cancelled, reduceCtorEq, false_or, Option.some.injEq,
        ParityState.mk.injEq, parities]
      constructor
      · rintro ⟨even, opens, closes⟩
        refine ⟨fun number => ?_, ?_, ?_⟩
        · by_cases inside : number < classes ∧ number < Text.wordBits
          · have counts := even number inside.1
            rwa [Nat.mod_eq_of_lt inside.2] at counts
          · have none : ((first :: rest).countP fun bracket =>
                classOf bracket.id % Text.wordBits = number) = 0 := by
              rw [List.countP_eq_zero]
              intro bracket _ same
              obtain rfl := of_decide_eq_true same
              exact inside ⟨Nat.lt_of_le_of_lt (Nat.mod_le _ _) (below bracket.id),
                Nat.mod_lt _ (by decide)⟩
            rw [none]
            exact .zero
        · rintro _ ⟨⟩
          simpa using opens
        · intro bracket found
          rw [last] at found
          cases found
          exact closes
      · intro cancels
        exact ⟨fun number _ => cancels.even (number % Text.wordBits),
          by simpa using cancels.first first rfl, cancels.last _ last⟩

end Brackets

/-! ## Soundness of the rules -/

section Rules

variable {grammars : List Grammar} {matched : BracketFamily → Nat → Prop}
  {holds : Nonterminal → List Label → Prop} {name left right inner source : Nonterminal}

theorem respects_unions (each : ∀ grammar ∈ grammars, Respects grammar matched holds) :
    Respects (BracketLanguage.unions grammars) matched holds where
  letter rule member := by
    obtain ⟨grammar, among, inside⟩ := mem_basic_unions.mp member
    exact (each grammar among).letter rule inside
  sequence member := by
    obtain ⟨grammar, among, inside⟩ := mem_concatenate_unions.mp member
    exact (each grammar among).sequence inside
  wrap member := by
    obtain ⟨grammar, among, inside⟩ := mem_concatenate_unions.mp member
    exact (each grammar among).wrap inside
  rename member := by
    obtain ⟨grammar, among, inside⟩ := mem_concatenate_unions.mp member
    exact (each grammar among).rename inside
  prepend rule member := by
    obtain ⟨grammar, among, inside⟩ := List.mem_flatMap.mp member
    exact (each grammar among).prepend rule inside
  append rule member := by
    obtain ⟨grammar, among, inside⟩ := List.mem_flatMap.mp member
    exact (each grammar among).append rule inside

theorem respects_empty : Respects .empty matched holds := by
  constructor <;> simp [Grammar.empty]

theorem respects_ifAny {known : List Nat} {grammar : Grammar}
    (respects : Respects grammar matched holds) :
    Respects (ifAny known grammar) matched holds := by
  unfold ifAny
  split
  · exact respects_empty
  · exact respects

theorem respects_append {left right : Grammar} (first : Respects left matched holds)
    (second : Respects right matched holds) : Respects (left ++ right) matched holds := by
  have asUnions : left ++ right = BracketLanguage.unions [left, right] := by
    change left.union right = _
    simp only [Grammar.union, BracketLanguage.unions, List.flatMap_cons, List.flatMap_nil,
      List.append_nil]
  rw [asUnions]
  exact respects_unions (by simp [first, second])

theorem respects_letter {label : Label} (stands : holds name [label]) :
    Respects (letter name label) matched holds := by
  refine ⟨fun rule member _ => ?_, ?_, ?_, ?_, ?_, ?_⟩
  · rw [List.mem_singleton.mp member]
    exact stands
  all_goals simp [letter]

theorem respects_matchedPairs (family : BracketFamily) (known : List Nat) :
    Respects (matchedPairs family known) matched holds := by
  refine ⟨?_, by simp [matchedPairs], by simp [matchedPairs], by simp [matchedPairs],
    by simp [matchedPairs], by simp [matchedPairs]⟩
  intro rule member word
  obtain ⟨id, _, rfl⟩ := List.mem_map.mp member
  exact absurd word (not_isWordName_openerName family id)

theorem respects_sequence
    (append : ∀ {before behind}, holds left before → holds right behind →
      holds name (before ++ behind)) :
    Respects (sequence name left right) matched holds := by
  refine ⟨by simp [sequence, concatenation], ?_, by simp [sequence, concatenation, wrapRule],
    by simp [sequence, concatenation, renameRule], by simp [sequence, concatenation],
    by simp [sequence, concatenation]⟩
  intro _ _ _ member before behind first second
  simp only [sequence, concatenation, sequenceRule, List.mem_singleton,
    ConcatenationRule.mk.injEq, List.cons.injEq, and_true] at member
  obtain ⟨rfl, ⟨rfl, rfl⟩, _⟩ := member
  exact append first second

theorem respects_wrap {family : BracketFamily}
    (enclose : ∀ {id word}, matched family id → holds inner word →
      holds name (family.openLabel id :: (word ++ [family.closeLabel id]))) :
    Respects (wrap name inner family) matched holds := by
  refine ⟨by simp [wrap, concatenation], by simp [wrap, concatenation, sequenceRule], ?_,
    by simp [wrap, concatenation, renameRule], by simp [wrap, concatenation],
    by simp [wrap, concatenation]⟩
  intro _ _ owner member id word known stands
  simp only [wrap, concatenation, wrapRule, List.mem_singleton,
    ConcatenationRule.mk.injEq, List.cons.injEq, and_true] at member
  obtain ⟨rfl, ⟨rfl, pair⟩, _⟩ := member
  cases pairName_injective pair
  exact enclose known stands

theorem respects_rename (renames : ∀ {word}, holds source word → holds name word) :
    Respects (rename name source) matched holds := by
  refine ⟨by simp [rename, concatenation], by simp [rename, concatenation, sequenceRule],
    by simp [rename, concatenation, wrapRule], ?_, by simp [rename, concatenation],
    by simp [rename, concatenation]⟩
  intro _ _ member word stands
  simp only [rename, concatenation, renameRule, List.mem_singleton,
    ConcatenationRule.mk.injEq, List.cons.injEq, and_true] at member
  obtain ⟨rfl, rfl, _⟩ := member
  exact renames stands

end Rules

/-! ## What the parity grammar derives -/

section Parity

variable {family : BracketFamily} {ids : BracketIds} {classCount : Nat}

/-- A word matches the family, and its name is its state, or the start if its passing
brackets cancel.  A word of more than one label is made of labels with states of the
grammar. -/
structure StateWord (family : BracketFamily) (ids : BracketIds) (classCount : Nat)
    (name : Nonterminal) (word : List Label) : Prop where
  matched : MatchedOver ids (· = family) word
  named : name = stateName (parityState family ids classCount word) ∨
    name = Grammar.startName ∧
      (parityState family ids classCount word = none ∨
        parityState family ids classCount word = some (cancelled (max classCount 1)))
  listed : (∀ label ∈ word, Listed (max classCount 1) (labelState family.other
      (ids.ofFamily family.other) (max classCount 1) label)) ∨ ∃ label, word = [label]

private theorem positive_max (classCount : Nat) : 0 < max classCount 1 :=
  Nat.lt_of_lt_of_le Nat.zero_lt_one (Nat.le_max_right classCount 1)

private theorem parityState_fits (word : List Label) :
    FitsIfAny (max classCount 1) (parityState family ids classCount word) :=
  fun _ found => wordState_fits found

private theorem fitsIfAny_of_listed {classes : Nat} {state : Option ParityState}
    (listed : Listed classes state) : FitsIfAny classes state :=
  fun known found => fits_of_mem_all (listed known found)

private theorem parityState_singleton (label : Label) :
    parityState family ids classCount [label] =
      labelState family.other (ids.ofFamily family.other) (max classCount 1) label := by
  rw [parityState, wordState, wordState, combine_none_right]

theorem StateWord.parityState_eq {state : Option ParityState} {word : List Label}
    (stands : StateWord family ids classCount (stateName state) word)
    (known : Listed (max classCount 1) state) :
    parityState family ids classCount word = state := by
  have positive := positive_max classCount
  rcases stands.named with same | ⟨start, _⟩
  · exact (stateName_injective positive (fitsIfAny_of_listed known) (parityState_fits word) same).symm
  · exact absurd start (stateName_ne_startName positive (fitsIfAny_of_listed known))

theorem StateWord.labels_listed {name : Nonterminal} {word : List Label}
    (stands : StateWord family ids classCount name word)
    (known : Listed (max classCount 1) (parityState family ids classCount word)) :
    ∀ label ∈ word, Listed (max classCount 1)
      (labelState family.other (ids.ofFamily family.other) (max classCount 1) label) := by
  rcases stands.listed with listed | ⟨only, rfl⟩
  · exact listed
  · intro label member
    rwa [List.mem_singleton.mp member, ← parityState_singleton]

theorem StateWord.labels_listed_of_state {state : Option ParityState} {word : List Label}
    (stands : StateWord family ids classCount (stateName state) word)
    (known : Listed (max classCount 1) state) :
    ∀ label ∈ word, Listed (max classCount 1)
      (labelState family.other (ids.ofFamily family.other) (max classCount 1) label) :=
  stands.labels_listed (by rwa [stands.parityState_eq known])

theorem StateWord.sequence {left right : Option ParityState} {before behind : List Label}
    (leftKnown : Listed (max classCount 1) left)
    (rightKnown : Listed (max classCount 1) right)
    (first : StateWord family ids classCount (stateName left) before)
    (second : StateWord family ids classCount (stateName right) behind) :
    StateWord family ids classCount (stateName (combine left right)) (before ++ behind) := by
  refine ⟨first.matched.append second.matched, Or.inl ?_, Or.inl fun label member => ?_⟩
  · rw [parityState, wordState_append]
    exact congrArg stateName (congrArg₂ combine (first.parityState_eq leftKnown).symm
      (second.parityState_eq rightKnown).symm)
  · exact (List.mem_append.mp member).elim (first.labels_listed_of_state leftKnown label)
      (second.labels_listed_of_state rightKnown label)

theorem parityState_enclose {id : Nat} (word : List Label) :
    parityState family ids classCount
        (family.openLabel id :: (word ++ [family.closeLabel id])) =
      parityState family ids classCount word := by
  have opens : family.other.owns (family.openLabel id) = false := by
    simp [BracketFamily.owns_openLabel, family.other_ne.symm]
  have closes : family.other.owns (family.closeLabel id) = false := by
    simp [BracketFamily.owns_closeLabel, family.other_ne.symm]
  simp only [parityState, wordState, wordState_append, labelState_of_foreign opens,
    labelState_of_foreign closes, combine_none_left, combine_none_right]

theorem StateWord.wrap (bounded : ids.Bounded) {state : Option ParityState}
    (listed : Listed (max classCount 1) state) {id : Nat} {word : List Label}
    (known : id ∈ ids.ofFamily family)
    (inner : StateWord family ids classCount (stateName state) word) :
    StateWord family ids classCount (stateName state)
      (family.openLabel id :: (word ++ [family.closeLabel id])) := by
  have foreign : ∀ label, label = family.openLabel id ∨ label = family.closeLabel id →
      family.other.owns label = false := by
    rintro label (rfl | rfl)
    · simp [BracketFamily.owns_openLabel, family.other_ne.symm]
    · simp [BracketFamily.owns_closeLabel, family.other_ne.symm]
  have outer : ∀ label, label = family.openLabel id ∨ label = family.closeLabel id →
      Listed (max classCount 1)
        (labelState family.other (ids.ofFamily family.other) (max classCount 1) label) := by
    intro label role
    rw [labelState_of_foreign (foreign label role)]
    exact listed_none _
  refine ⟨inner.matched.wrap bounded known, Or.inl ?_, Or.inl fun label member => ?_⟩
  · rw [parityState_enclose, inner.parityState_eq listed]
  · rcases List.mem_cons.mp member with opens | later
    · exact outer label (.inl opens)
    · rcases List.mem_append.mp later with inside | closes
      · exact inner.labels_listed_of_state listed label inside
      · exact outer label (.inr (List.mem_singleton.mp closes))

theorem StateWord.letter {label : Label}
    (covers : ids.Covers label ∨ label = Grammar.epsilon)
    (foreign : family.owns label = false) :
    StateWord family ids classCount
      (stateName (parityState family ids classCount [label])) [label] :=
  ⟨.letter covers (by rintro _ rfl; exact foreign), Or.inl rfl, Or.inr ⟨label, rfl⟩⟩

theorem StateWord.neutral {label : Label} (covers : ids.Covers label ∨ label = Grammar.epsilon)
    (isNeutral : label = normalLabel ∨ label = Grammar.epsilon) :
    StateWord family ids classCount uncountedName [label] := by
  have foreign : ∀ owner : BracketFamily, owner.owns label = false := by
    intro owner
    rcases isNeutral with rfl | rfl
    · exact BracketFamily.owns_normalLabel owner
    · exact BracketFamily.owns_epsilon owner
  have word : StateWord family ids classCount _ [label] := .letter covers (foreign family)
  rwa [parityState, wordState, labelState_of_foreign (foreign family.other)] at word

/-- A passing bracket has the state of its class. -/
theorem StateWord.passing (bounded : ids.Bounded) {id : Nat}
    (known : id ∈ ids.ofFamily family.other) :
    let state (closes : Bool) := single (max classCount 1)
      (classOf (ids.ofFamily family.other) (max classCount 1) id) closes !closes
    StateWord family ids classCount (state false).name [family.other.openLabel id] ∧
      StateWord family ids classCount (state true).name [family.other.closeLabel id] := by
  have below := bounded family.other id known
  constructor
  · have word : StateWord family ids classCount _ [family.other.openLabel id] :=
      .letter (Or.inl (Or.inr ⟨family.other, id, known, Or.inl rfl⟩))
        (by simp [BracketFamily.owns_openLabel, family.other_ne])
    rwa [parityState, wordState, labelState_openLabel below] at word
  · have word : StateWord family ids classCount _ [family.other.closeLabel id] :=
      .letter (Or.inl (Or.inr ⟨family.other, id, known, Or.inr rfl⟩))
        (by simp [BracketFamily.owns_closeLabel, family.other_ne])
    rwa [parityState, wordState, labelState_closeLabel below] at word

private theorem listed_of_cancels {classes : Nat} {state : Option ParityState}
    (cancels : state = none ∨ state = some (cancelled classes)) : Listed classes state := by
  rcases cancels with rfl | rfl
  · exact listed_none classes
  · rintro _ ⟨⟩
    exact cancelled_mem_all classes

theorem StateWord.rename {state : Option ParityState} {word : List Label}
    (cancels : state = none ∨ state = some (cancelled (max classCount 1)))
    (inner : StateWord family ids classCount (stateName state) word) :
    StateWord family ids classCount Grammar.startName word := by
  have known := listed_of_cancels cancels
  refine ⟨inner.matched, Or.inr ⟨rfl, ?_⟩, Or.inl (inner.labels_listed_of_state known)⟩
  rwa [inner.parityState_eq known]

private theorem listed_of_mem_named {state : ParityState} {name : Nonterminal}
    {classes : Nat} (named : (state, name) ∈ (all classes).map fun state => (state, state.name)) :
    name = stateName (some state) ∧ Listed classes (some state) := by
  obtain ⟨known, member, same⟩ := List.mem_map.mp named
  cases same
  refine ⟨rfl, ?_⟩
  rintro _ ⟨⟩
  exact member

theorem respects_parity (bounded : ids.Bounded)
    (distinct : (ids.ofFamily family.other).Nodup) :
    Respects (parityOver family ids classCount) (fun owner id => id ∈ ids.ofFamily owner)
      (StateWord family ids classCount) := by
  have noState := listed_none (max classCount 1)
  apply respects_unions
  simp only [List.forall_mem_cons, List.not_mem_nil, false_implies, implies_true, and_true]
  refine ⟨?_, ?_, ?_, ?_, ?_, ?_, ?_, ?_⟩
  · exact respects_matchedPairs _ _
  · exact respects_append (respects_letter (.neutral (Or.inr rfl) (Or.inr rfl)))
      (respects_letter (.neutral (Or.inl (Or.inl rfl)) (Or.inl rfl)))
  · refine respects_unions fun grammar member => ?_
    obtain ⟨⟨id, place⟩, placed, rfl⟩ := List.mem_map.mp member
    have known := mem_ascending.mp (List.fst_mem_of_mem_zipIdx placed)
    have here := idxOf_of_mem_zipIdx distinct placed
    have state := @StateWord.passing _ _ classCount bounded _ known
    rw [BracketLanguage.classOf, here] at state
    exact respects_append (respects_letter state.2) (respects_letter state.1)
  · refine respects_ifAny (respects_unions fun grammar member => ?_)
    rcases List.mem_cons.mp member with rfl | named
    · exact respects_wrap fun known inner => StateWord.wrap bounded noState known inner
    · obtain ⟨⟨state, name⟩, isNamed, rfl⟩ := List.mem_map.mp named
      obtain ⟨rfl, listed⟩ := listed_of_mem_named isNamed
      exact respects_wrap fun known inner => inner.wrap bounded listed known
  · exact respects_sequence fun first second =>
      StateWord.sequence noState noState first second
  · refine respects_unions fun grammar member => ?_
    obtain ⟨⟨left, leftName⟩, isNamed, joins⟩ := List.mem_flatMap.mp member
    obtain ⟨rfl, leftListed⟩ := listed_of_mem_named isNamed
    rcases List.mem_cons.mp joins with rfl | joins
    · exact respects_sequence fun first second =>
        StateWord.sequence leftListed noState first second
    · rcases List.mem_cons.mp joins with rfl | joins
      · exact respects_sequence fun first second =>
          StateWord.sequence noState leftListed first second
      · obtain ⟨⟨right, rightName⟩, rightNamed, rfl⟩ := List.mem_map.mp joins
        obtain ⟨rfl, rightListed⟩ := listed_of_mem_named rightNamed
        exact respects_sequence fun first second =>
          StateWord.sequence leftListed rightListed first second
  · exact respects_rename fun word => StateWord.rename (.inl rfl) word
  · exact respects_rename fun word => @StateWord.rename _ _ _ (some _) _ (.inr rfl) word

/-- The ids of the brackets in a covered word are known. -/
theorem id_mem_of_covered (bounded : ids.Bounded) {owner : BracketFamily} {word : List Label}
    (covered : ∀ label ∈ word, ids.Covers label ∨ label = Grammar.epsilon)
    {bracket : PassingBracket} (member : bracket ∈ owner.bracketsOf word) :
    bracket.id ∈ ids.ofFamily owner := by
  obtain ⟨label, inWord, reading⟩ := List.mem_filterMap.mp member
  unfold BracketFamily.bracketOf? at reading
  rcases covered label inWord with (rfl | ⟨family, id, known, role⟩) | rfl
  · simp at reading
  · have below := bounded family id known
    rcases role with rfl | rfl
    · rw [BracketLabel.read_openLabel family below] at reading
      simp only [Option.ite_none_right_eq_some, Option.some.injEq] at reading
      obtain ⟨rfl, rfl⟩ := reading
      exact known
    · rw [BracketLabel.read_closeLabel family below] at reading
      simp only [Option.ite_none_right_eq_some, Option.some.injEq] at reading
      obtain ⟨rfl, rfl⟩ := reading
      exact known
  · simp at reading

/-- A word can be renamed to the start, and its labels have states, exactly when its passing
brackets cancel for a machine word. -/
theorem parityState_cancels (bounded : ids.Bounded)
    (distinct : (ids.ofFamily family.other).Nodup) {word : List Label}
    (covered : ∀ label ∈ word, ids.Covers label ∨ label = Grammar.epsilon) :
    ((∀ label ∈ word, Listed (max classCount 1)
          (labelState family.other (ids.ofFamily family.other) (max classCount 1) label)) ∧
        (parityState family ids classCount word = none ∨
          parityState family ids classCount word = some (cancelled (max classCount 1)))) ↔
      CancelsInWord (ids.ofFamily family.other) (max classCount 1)
        (family.other.bracketsOf word) := by
  have positive := positive_max classCount
  have digits : ∀ bracket ∈ family.other.bracketsOf word,
      classOf (ids.ofFamily family.other) (max classCount 1) bracket.id % Text.wordBits =
        classDigit (ids.ofFamily family.other) (max classCount 1) bracket.id := by
    intro bracket member
    rw [classOf, classDigit, residueClass,
      idxOf_ascending distinct (id_mem_of_covered bounded covered member)]
  have below : ∀ id, classOf (ids.ofFamily family.other) (max classCount 1) id <
      max classCount 1 := fun id => Nat.mod_lt _ positive
  rw [parityState, wordState_eq_bracketState, bracketState_cancels below,
    listed_labels_iff positive]
  constructor
  · rintro ⟨counted, cancels⟩
    exact ⟨fun bracket member => digits bracket member ▸ counted bracket member,
      cancels.congr digits⟩
  · intro cancels
    exact ⟨fun bracket member => (digits bracket member).symm ▸ cancels.counted bracket member,
      cancels.cancels.congr fun bracket member => (digits bracket member).symm⟩

/-- Behind every answer of the parity grammar is a walk with a word of the family whose
passing brackets cancel for a machine word. -/
theorem exists_walk_of_derives_parity (bounded : ids.Bounded)
    (distinct : (ids.ofFamily family.other).Nodup) {graph : Graph} {span : Span}
    {used : List Edge}
    (derives : (parityOver family ids classCount).Derives graph Grammar.startName [span] used) :
    ∃ path, Joins span.start path span.stop ∧ (∀ edge ∈ path, edge ∈ graph.edges) ∧
      (∀ edge ∈ used, edge ∈ path) ∧ MatchedOver ids (· = family) (wordOf path) ∧
      CancelsInWord (ids.ofFamily family.other) (max classCount 1)
        (family.other.bracketsOf (wordOf path)) := by
  obtain ⟨path, joins, inside, uses, word⟩ := wordWalk_of_derives
    (matching_parity family ids classCount).shape (respects_parity bounded distinct)
    isWordName_startName derives
  refine ⟨path, joins, inside, uses, word.matched, ?_⟩
  have cancels : parityState family ids classCount (wordOf path) = none ∨
      parityState family ids classCount (wordOf path) = some (cancelled (max classCount 1)) := by
    rcases word.named with start | ⟨_, cancels⟩
    · exact absurd start.symm
        (stateName_ne_startName (positive_max classCount) (parityState_fits (wordOf path)))
    · exact cancels
  refine (parityState_cancels bounded distinct word.matched.covered).mp ⟨?_, cancels⟩
  exact word.labels_listed (listed_of_cancels cancels)

/-- The parity grammar derives every walk with a word of the family whose passing
brackets cancel for a machine word, with all its edges. -/
theorem derives_parity_of_walk (bounded : ids.Bounded)
    (distinct : (ids.ofFamily family.other).Nodup) {graph : Graph} (built : graph.Built)
    {start stop : Vertex} {path : List Edge} (joins : Joins start path stop)
    (inside : ∀ edge ∈ path, edge ∈ graph.edges) (member : start ∈ graph.vertices)
    (word : MatchedOver ids (· = family) (wordOf path))
    (cancels : CancelsInWord (ids.ofFamily family.other) (max classCount 1)
      (family.other.bracketsOf (wordOf path))) :
    ∃ used, (parityOver family ids classCount).Derives graph Grammar.startName
      [⟨start, stop⟩] used ∧ ∀ edge ∈ path, edge ∈ used := by
  obtain ⟨listed, isCancelled⟩ :=
    (parityState_cancels bounded distinct word.covered).mpr cancels
  obtain ⟨used, derives, covers⟩ := derives_of_matched built
    (derivesMatched_parity family ids classCount bounded) (word.matched family rfl)
    joins inside member fun label inWord => ⟨word.covered label inWord, listed label inWord⟩
  have renamed := rename_mem_parity family ids classCount isCancelled
  exact ⟨used, derives_rename renamed derives, covers⟩

end Parity

/-! ## Solving -/

/-- A balanced path along which the passing brackets cancel: there are none of them, or
every class has an even number of them, the first one opens and the last one closes. -/
def ParityPath (graph : Graph) (family : BracketFamily) (own passing : List Nat)
    (classes : Nat) (span : Span) (path : List Edge) : Prop :=
  BalancedPath graph family own passing span path ∧
    (family.other.bracketsOf (wordOf path) = [] ∨
      Cancels (residueClass passing classes) (family.other.bracketsOf (wordOf path)))

/-- A balanced path along which the passing brackets cancel for a machine word. -/
def WordParityPath (graph : Graph) (family : BracketFamily) (own passing : List Nat)
    (classes : Nat) (span : Span) (path : List Edge) : Prop :=
  BalancedPath graph family own passing span path ∧
    CancelsInWord passing classes (family.other.bracketsOf (wordOf path))

theorem wordParityPath_iff {graph : Graph} {family : BracketFamily} {own passing : List Nat}
    {classes : Nat} {span : Span} {path : List Edge} (positive : 0 < classes)
    (within : classes < Text.wordBits) :
    WordParityPath graph family own passing classes span path ↔
      ParityPath graph family own passing classes span path := by
  rw [WordParityPath, cancelsInWord_iff positive within]
  refine and_congr_right fun _ => ⟨Or.inr, ?_⟩
  rintro (none | cancels)
  · exact none ▸ .nil
  · exact cancels

section Solve

variable {graph : Graph} {family : BracketFamily} {own passing : List Nat} {classes : Nat}

/-- Solving the parity grammar ends and answers with the spans of balanced paths along which
the passing brackets cancel for a machine word. -/
theorem mem_spans_solve_wordParity (built : graph.Built)
    (ownBounded : ∀ id ∈ own, id < Text.halfWordBound)
    (passingBounded : ∀ id ∈ passing, id < Text.halfWordBound) (distinct : passing.Nodup)
    (positive : 0 < classes) (options : SolveOptions) :
    SolveEnds graph (parity family own family.other passing classes) options ∧
      ∀ span,
        span ∈ (solve graph (parity family own family.other passing classes) options).spans ↔
          ∃ path, WordParityPath graph family own passing classes span path := by
  have bounded : (idsOf family own passing).Bounded :=
    bounded_idsOf ownBounded passingBounded
  have grammar : parity family own family.other passing classes =
      parityOver family (idsOf family own passing) classes := by
    rw [parityOver, ofFamily_idsOf, ofFamily_other_idsOf]
  have isDistinct : ((idsOf family own passing).ofFamily family.other).Nodup := by
    rwa [ofFamily_other_idsOf]
  have classCount : max classes 1 = classes := Nat.max_eq_left positive
  have arities :=
    (matching_parity family (idsOf family own passing) classes).shape.hasArities
  rw [grammar]
  refine ⟨arities.solveEnds built options, fun span => ?_⟩
  rw [mem_spans_solve built arities]
  constructor
  · rintro ⟨used, derives⟩
    obtain ⟨path, joins, inside, _, word, cancels⟩ :=
      exists_walk_of_derives_parity bounded isDistinct derives
    rw [classCount, ofFamily_other_idsOf] at cancels
    obtain ⟨longer, balanced, rfl | ⟨_, rfl⟩⟩ :=
      exists_balancedPath_of_walk built derives joins inside word
    · exact ⟨longer, balanced, cancels⟩
    · exact ⟨_, balanced, .nil⟩
  · rintro ⟨path, balanced, cancels⟩
    obtain ⟨used, derives, _⟩ := derives_parity_of_walk bounded isDistinct built
      balanced.2.1 balanced.2.2.1 (balanced.start_mem built) balanced.matchedOver
      (by rwa [classCount, ofFamily_other_idsOf])
    exact ⟨used, derives⟩

/-- Solving the parity grammar answers with the spans of balanced paths along which the passing
brackets cancel, as long as there are fewer classes than a machine word has digits.  In any
number of classes they cancel for the word. -/
theorem mem_spans_solve_parity (built : graph.Built)
    (ownBounded : ∀ id ∈ own, id < Text.halfWordBound)
    (passingBounded : ∀ id ∈ passing, id < Text.halfWordBound) (distinct : passing.Nodup)
    (positive : 0 < classes) (options : SolveOptions) :
    SolveEnds graph (parity family own family.other passing classes) options ∧
      (∀ span,
        span ∈ (solve graph (parity family own family.other passing classes) options).spans ↔
          ∃ path, WordParityPath graph family own passing classes span path) ∧
      (classes < Text.wordBits → ∀ span,
        span ∈ (solve graph (parity family own family.other passing classes) options).spans ↔
          ∃ path, ParityPath graph family own passing classes span path) := by
  obtain ⟨ends, answers⟩ :=
    mem_spans_solve_wordParity built ownBounded passingBounded distinct positive options
  refine ⟨ends, answers, fun within span => ?_⟩
  rw [answers span]
  exact exists_congr fun path => wordParityPath_iff positive within

end Solve

/-- Parentheses around a passing bracket that is opened and closed again. -/
def passingBrackets : Graph :=
  .ofEdges [⟨0, 1, "op--0"⟩, ⟨1, 2, "ob--4"⟩, ⟨2, 3, "cb--4"⟩, ⟨3, 4, "cp--0"⟩]

theorem mem_spans_solve_passingBrackets :
    passingBrackets.Built ∧ (∀ id ∈ [0], id < Text.halfWordBound) ∧
      (∀ id ∈ [4, 2], id < Text.halfWordBound) ∧ [4, 2].Nodup ∧ 0 < 2 ∧
      2 < Text.wordBits ∧
      SolveEnds passingBrackets (parity .parenthesis [0] .bracket [4, 2] 2) {} ∧
      (∃ path, ParityPath passingBrackets .parenthesis [0] [4, 2] 2 ⟨0, 4⟩ path) ∧
      ¬ ∃ path, WordParityPath passingBrackets .parenthesis [0] [4, 2] 2 ⟨1, 2⟩ path := by
  have built : passingBrackets.Built := Graph.built_ofEdges _
  have own : ∀ id ∈ [0], id < Text.halfWordBound := by decide
  have passing : ∀ id ∈ [4, 2], id < Text.halfWordBound := by decide
  obtain ⟨ends, inWord, answers⟩ := @mem_spans_solve_parity passingBrackets .parenthesis [0]
    [4, 2] 2 built own passing (by decide) (by decide) {}
  have known : ⟨0, 4⟩ ∈ (solve passingBrackets (parity .parenthesis [0] .bracket [4, 2] 2)
        {}).spans ∧
      ⟨1, 2⟩ ∉ (solve passingBrackets (parity .parenthesis [0] .bracket [4, 2] 2) {}).spans := by
    decide +kernel
  refine ⟨built, own, passing, by decide, by decide, by decide, ends,
    (answers (by decide) ⟨0, 4⟩).mp known.1, ?_⟩
  exact fun path => known.2 ((inWord ⟨1, 2⟩).mpr path)

/-- A passing bracket that is opened and closed again. -/
def passedPair : List Edge :=
  [⟨0, 1, "ob--0"⟩, ⟨1, 2, "cb--0"⟩]

theorem bracketsOf_ne_nil_of_passedPair {path : List Edge} (joins : Joins 0 path 2)
    (inside : ∀ edge ∈ path, edge ∈ (Graph.ofEdges passedPair).edges) :
    BracketFamily.bracket.bracketsOf (wordOf path) ≠ [] := by
  intro empty
  have loops : ∀ edge ∈ (Graph.ofEdges passedPair).edges,
      BracketFamily.bracket.bracketOf? edge.label = none → edge.source = edge.target := by
    decide +kernel
  have noBracket := List.filterMap_eq_nil_iff.mp empty
  have stays : (0 : Vertex) = 2 := joins.transport (0 = ·)
    (fun edge member here => here.trans (loops edge (inside edge member)
      (noBracket edge.label (List.mem_map_of_mem member)))) rfl
  cases stays

/-- With as many classes as a machine word has digits there is no state for the bracket. -/
theorem lost_answer_passedPair :
    (Graph.ofEdges passedPair).Built ∧
      ParityPath (.ofEdges passedPair) .parenthesis [] [0] 64 ⟨0, 2⟩ passedPair ∧
      ⟨0, 2⟩ ∉ (solve (.ofEdges passedPair) (parity .parenthesis [] .bracket [0] 64)
        {}).spans := by
  have built : (Graph.ofEdges passedPair).Built := Graph.built_ofEdges _
  have labels : ∀ label ∈ wordOf passedPair, BalancedLabel .parenthesis [] [0] label := by
    unfold BalancedLabel
    decide
  have nested : BracketFamily.parenthesis.WellNested
      (BracketFamily.parenthesis.only (wordOf passedPair)) := by
    have none : BracketFamily.parenthesis.only (wordOf passedPair) = [] := by decide
    exact none ▸ .nil
  have brackets : BracketFamily.bracket.bracketsOf (wordOf passedPair) =
      [⟨0, true⟩, ⟨0, false⟩] := by
    decide
  have cancels : Cancels (residueClass [0] 64)
      (BracketFamily.bracket.bracketsOf (wordOf passedPair)) :=
    brackets ▸ Cancels.nil.enclose 0
  refine ⟨built, ⟨⟨by decide, ⟨rfl, rfl, rfl⟩, by decide +kernel, labels, nested⟩,
    .inr cancels⟩, fun answered => ?_⟩
  have answers := @mem_spans_solve_wordParity _ .parenthesis [] [0] 64 built (by simp)
    (by decide) (by decide) (by decide) {}
  obtain ⟨path, balanced, isCancelled⟩ := (answers.2 ⟨0, 2⟩).mp answered
  exact bracketsOf_ne_nil_of_passedPair balanced.2.1 balanced.2.2.1
    (isCancelled.eq_nil (by decide))

end BracketLanguage

end GrammarReach
