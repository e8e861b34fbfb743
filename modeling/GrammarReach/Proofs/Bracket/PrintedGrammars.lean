import GrammarReach.Bracket.Language
import GrammarReach.Proofs.Grammar.ReadingBack

/-!
# Well-formed grammars

A grammar is well formed when its names and labels can be read, no label of a unary rule is
a printed variable, and every concatenation uses each segment of its bodies once.  Printed
well-formed grammars are read back, and all grammars of bracket languages are well formed.
-/

namespace GrammarReach

open Clause

/-! ## Well-formed rules -/

/-- The label of an extension is none of the printed variables. -/
structure ExtensionRule.WellFormed (rule : ExtensionRule) : Prop extends rule.Formed where
  fresh : rule.label ∉ variableNames 0 rule.arity

instance (rule : ExtensionRule) : Decidable rule.WellFormed :=
  decidable_of_iff (rule.Formed ∧ rule.label ∉ variableNames 0 rule.arity)
    ⟨fun ⟨formed, fresh⟩ => ⟨formed, fresh⟩, fun ⟨formed, fresh⟩ => ⟨formed, fresh⟩⟩

/-- The label of an insertion is none of the printed variables. -/
structure InsertionRule.WellFormed (rule : InsertionRule) : Prop extends rule.Formed where
  fresh : rule.label ∉ variableNames 0 rule.bodyArity

instance (rule : InsertionRule) : Decidable rule.WellFormed :=
  decidable_of_iff (rule.Formed ∧ rule.label ∉ variableNames 0 rule.bodyArity)
    ⟨fun ⟨formed, fresh⟩ => ⟨formed, fresh⟩, fun ⟨formed, fresh⟩ => ⟨formed, fresh⟩⟩

namespace ConcatenationRule

/-- All segments of the bodies. -/
def references (rule : ConcatenationRule) : List SegmentRef :=
  (List.range rule.bodies.length).flatMap fun body =>
    (List.range (rule.bodyArity body)).map fun segment => ⟨body, segment⟩

/-- There is a body, no body is the empty word or without segments, no chain is empty, and
every segment of the bodies is used once. -/
structure Linear (rule : ConcatenationRule) : Prop where
  head : Atom.IsName rule.head
  bodies_ne_nil : rule.bodies ≠ []
  bodies : ∀ name ∈ rule.bodies, Atom.IsName name ∧ name ≠ Grammar.emptyWordName
  used : ∀ position < rule.bodies.length, 0 < rule.bodyArity position
  chain_ne_nil : ∀ chain ∈ rule.wiring, chain ≠ []
  once : rule.wiring.flatten.Perm rule.references

instance (rule : ConcatenationRule) : Decidable rule.Linear :=
  decidable_of_iff (Atom.IsName rule.head ∧ rule.bodies ≠ [] ∧
      (∀ name ∈ rule.bodies, Atom.IsName name ∧ name ≠ Grammar.emptyWordName) ∧
      (∀ position < rule.bodies.length, 0 < rule.bodyArity position) ∧
      (∀ chain ∈ rule.wiring, chain ≠ []) ∧ rule.wiring.flatten.Perm rule.references)
    ⟨fun ⟨head, any, bodies, used, chains, once⟩ => ⟨head, any, bodies, used, chains, once⟩,
      fun ⟨head, any, bodies, used, chains, once⟩ => ⟨head, any, bodies, used, chains, once⟩⟩

variable {rule : ConcatenationRule}

private theorem Linear.formed (linear : rule.Linear) : rule.Formed := by
  have within : ∀ reference ∈ rule.wiring.flatten, reference.body < rule.bodies.length := by
    intro reference member
    obtain ⟨body, inBodies, inBody⟩ := List.mem_flatMap.mp (linear.once.subset member)
    obtain ⟨segment, _, rfl⟩ := List.mem_map.mp inBody
    exact List.mem_range.mp inBodies
  refine ⟨⟨linear.bodies_ne_nil, linear.chain_ne_nil, within⟩, linear.head, linear.bodies, ?_⟩
  intro none
  have positive := linear.used 0 (List.length_pos_of_ne_nil linear.bodies_ne_nil)
  have small : rule.bodyArity 0 ≤ 0 := bodyArity_le fun reference member => by simp [none] at member
  exact absurd small (Nat.not_le_of_lt positive)

private theorem length_le_one_of_flatten {lists : List (List SegmentRef)}
    (nonempty : ∀ list ∈ lists, list ≠ []) :
    lists.length ≤ lists.flatten.length ∧
      (lists.flatten.length ≤ lists.length → ∀ list ∈ lists, list.length ≤ 1) := by
  induction lists with
  | nil => simp
  | cons list lists induction =>
      have positive := List.length_pos_of_ne_nil (nonempty list (by simp))
      obtain ⟨atLeast, later⟩ := induction fun other member => nonempty other (by simp [member])
      rw [List.flatten_cons, List.length_append, List.length_cons, List.forall_mem_cons]
      exact ⟨by omega, fun atMost => ⟨by omega, later (by omega)⟩⟩

private theorem Linear.readsBack (linear : rule.Linear) : rule.ReadsBack := by
  refine ⟨linear.used, fun count same => ?_⟩
  have total : rule.wiring.flatten.length = rule.wiring.length := by
    rw [linear.once.length_eq, same, references, count]
    simp
  have short := (length_le_one_of_flatten linear.chain_ne_nil).2 (Nat.le_of_eq total)
  have none : (rule.wiring.filter fun chain => decide (1 < chain.length)) = [] := by
    apply List.filter_eq_nil_iff.mpr
    intro chain member long
    exact absurd (short chain member) (Nat.not_le_of_lt (of_decide_eq_true long))
  rw [none]
  exact Nat.zero_le 1

end ConcatenationRule

namespace Grammar

/-- All rules of the grammar are well formed. -/
structure WellFormed (grammar : Grammar) : Prop where
  basic : ∀ rule ∈ grammar.basic, rule.Formed
  prepend : ∀ rule ∈ grammar.prepend, rule.WellFormed
  append : ∀ rule ∈ grammar.append, rule.WellFormed
  insert : ∀ rule ∈ grammar.insert, rule.WellFormed
  concatenate : ∀ rule ∈ grammar.concatenate, rule.Linear

instance (grammar : Grammar) : Decidable grammar.WellFormed :=
  decidable_of_iff ((∀ rule ∈ grammar.basic, rule.Formed) ∧
      (∀ rule ∈ grammar.prepend, rule.WellFormed) ∧ (∀ rule ∈ grammar.append, rule.WellFormed) ∧
      (∀ rule ∈ grammar.insert, rule.WellFormed) ∧ ∀ rule ∈ grammar.concatenate, rule.Linear)
    ⟨fun ⟨basic, prepend, append, insert, concatenate⟩ =>
        ⟨basic, prepend, append, insert, concatenate⟩,
      fun ⟨basic, prepend, append, insert, concatenate⟩ =>
        ⟨basic, prepend, append, insert, concatenate⟩⟩

variable {grammar : Grammar}

private theorem WellFormed.rule (wellFormed : grammar.WellFormed) {rule : Rule}
    (member : rule ∈ grammar.rules) : rule.Formed ∧ rule.ReadsBack := by
  rcases mem_rules.mp member with ⟨basic, inBasic, rfl⟩ | ⟨prepend, inPrepend, rfl⟩ |
    ⟨append, inAppend, rfl⟩ | ⟨insert, inInsert, rfl⟩ | ⟨concatenate, inConcatenate, rfl⟩
  · exact ⟨wellFormed.basic basic inBasic, trivial⟩
  · have isWellFormed := wellFormed.prepend prepend inPrepend
    exact ⟨isWellFormed.toFormed, isWellFormed.fresh⟩
  · have isWellFormed := wellFormed.append append inAppend
    exact ⟨isWellFormed.toFormed, isWellFormed.fresh⟩
  · have isWellFormed := wellFormed.insert insert inInsert
    exact ⟨isWellFormed.toFormed, isWellFormed.fresh⟩
  · have linear := wellFormed.concatenate concatenate inConcatenate
    exact ⟨linear.formed, linear.readsBack⟩

theorem WellFormed.read_text (wellFormed : grammar.WellFormed) :
    Grammar.read grammar.text = .ok grammar := by
  apply (read_text_iff_forall fun rule member => (wellFormed.rule member).1).mpr
  exact fun rule member => (wellFormed.rule member).2

theorem WellFormed.union {left right : Grammar} (leftFormed : left.WellFormed)
    (rightFormed : right.WellFormed) : (left ++ right).WellFormed where
  basic := List.forall_mem_append.mpr ⟨leftFormed.basic, rightFormed.basic⟩
  prepend := List.forall_mem_append.mpr ⟨leftFormed.prepend, rightFormed.prepend⟩
  append := List.forall_mem_append.mpr ⟨leftFormed.append, rightFormed.append⟩
  insert := List.forall_mem_append.mpr ⟨leftFormed.insert, rightFormed.insert⟩
  concatenate := List.forall_mem_append.mpr ⟨leftFormed.concatenate, rightFormed.concatenate⟩

end Grammar

/-! ## Bracket labels and names -/

namespace BracketFamily

private theorem isLabel_labelWith {role : Char} (isToken : Atom.isTokenCharacter role = true)
    (different : role ≠ 'e') (family : BracketFamily) (id : Nat) :
    IsLabel (labelWith role family id) := by
  have shape := toList_labelWith role family id
  refine .inr ⟨⟨by simp [shape], ?_⟩, ?_⟩
  · intro character member
    rw [shape] at member
    simp only [List.mem_cons] at member
    rcases member with rfl | rfl | rfl | rfl | digit
    · exact isToken
    · cases family with
      | parenthesis => decide
      | bracket => decide
    · decide
    · decide
    · exact Atom.isTokenCharacter_of_isNameCharacter (Atom.isNameCharacter_of_mem_decimal digit)
  · intro same
    have characters := congrArg String.toList same
    rw [shape] at characters
    exact different (List.cons.inj characters).1

theorem isLabel_openLabel (family : BracketFamily) (id : Nat) : IsLabel (family.openLabel id) :=
  isLabel_labelWith (by decide) (by decide) family id

theorem isLabel_closeLabel (family : BracketFamily) (id : Nat) : IsLabel (family.closeLabel id) :=
  isLabel_labelWith (by decide) (by decide) family id

private theorem labelWith_not_mem {role : Char} (different : role ≠ 'X')
    (family : BracketFamily) (id arity : Nat) :
    labelWith role family id ∉ variableNames 0 arity := by
  rw [mem_variableNames]
  rintro ⟨segment, _, same⟩
  have characters := congrArg String.toList same
  rw [toList_labelWith, toList_variableName_zero] at characters
  exact different (List.cons.inj characters).1.symm

end BracketFamily

/-! ## Bracket grammars -/

namespace BracketLanguage

open Grammar (WellFormed)

variable {name inner left right : Nonterminal} {family passing : BracketFamily}
  {ids passingIds : List Nat}

private theorem wellFormed_empty : Grammar.empty.WellFormed where
  basic := by simp [Grammar.empty]
  prepend := by simp [Grammar.empty]
  append := by simp [Grammar.empty]
  insert := by simp [Grammar.empty]
  concatenate := by simp [Grammar.empty]

private theorem wellFormed_unions {grammars : List Grammar}
    (each : ∀ grammar ∈ grammars, grammar.WellFormed) : (unions grammars).WellFormed := by
  constructor
  all_goals
    intro rule member
    obtain ⟨grammar, inGrammars, inGrammar⟩ := List.mem_flatMap.mp member
  · exact (each grammar inGrammars).basic rule inGrammar
  · exact (each grammar inGrammars).prepend rule inGrammar
  · exact (each grammar inGrammars).append rule inGrammar
  · exact (each grammar inGrammars).insert rule inGrammar
  · exact (each grammar inGrammars).concatenate rule inGrammar

private theorem wellFormed_ifAny {grammar : Grammar} (wellFormed : grammar.WellFormed) :
    (ifAny ids grammar).WellFormed := by
  unfold ifAny
  split
  · exact wellFormed_empty
  · exact wellFormed

private theorem wellFormed_basic {rules : List BasicRule}
    (formed : ∀ rule ∈ rules, rule.Formed) : WellFormed { basic := rules } where
  basic := formed
  prepend := by simp
  append := by simp
  insert := by simp
  concatenate := by simp

private theorem wellFormed_letter (isName : Atom.IsName name) {label : Label}
    (isLabel : IsLabel label) : (letter name label).WellFormed := by
  apply wellFormed_basic
  intro rule member
  cases List.mem_singleton.mp member
  exact ⟨isName, isLabel⟩

private theorem wellFormed_letters (isName : Atom.IsName name) :
    (letters name family ids).WellFormed := by
  apply wellFormed_basic
  intro rule member
  obtain ⟨id, _, isLetter⟩ := List.mem_flatMap.mp member
  rcases List.mem_pair.mp isLetter with rfl | rfl
  · exact ⟨isName, family.isLabel_openLabel id⟩
  · exact ⟨isName, family.isLabel_closeLabel id⟩

private theorem wellFormed_neutralLetters (isName : Atom.IsName name) :
    (neutralLetters name).WellFormed :=
  (wellFormed_letter isName (.inl rfl)).union (wellFormed_letter isName (by decide +kernel))

/-- Names of bodies can be read, and are not that of the empty word. -/
private def IsBody (name : Nonterminal) : Prop :=
  Atom.IsName name ∧ name ≠ Grammar.emptyWordName

/-- A rule with one chain for so many bodies, without their names. -/
private def chainRule (count : Nat) (chain : List (Nat × Nat)) : ConcatenationRule :=
  ⟨"", List.replicate count "", [chain.map fun (body, segment) => ⟨body, segment⟩]⟩

/-- The chain uses every segment of so many bodies once. -/
private def IsExact (count : Nat) (chain : List (Nat × Nat)) : Prop :=
  0 < count ∧ chain ≠ [] ∧ (∀ position < count, 0 < (chainRule count chain).bodyArity position) ∧
    (chainRule count chain).wiring.flatten.Perm (chainRule count chain).references

private instance (count : Nat) (chain : List (Nat × Nat)) : Decidable (IsExact count chain) :=
  inferInstanceAs (Decidable (_ ∧ _ ∧ _ ∧ _))

private theorem wellFormed_concatenation {bodies : List Nonterminal} {chain : List (Nat × Nat)}
    {count : Nat} (exact : IsExact count chain) (length : bodies.length = count)
    (isName : Atom.IsName name) (areBodies : ∀ body ∈ bodies, IsBody body) :
    (concatenation name bodies chain).WellFormed := by
  obtain ⟨positive, nonempty, used, once⟩ := exact
  have linear : ConcatenationRule.Linear
      ⟨name, bodies, [chain.map fun (body, segment) => ⟨body, segment⟩]⟩ := by
    have references : ConcatenationRule.references
        ⟨name, bodies, [chain.map fun (body, segment) => ⟨body, segment⟩]⟩ =
          (chainRule count chain).references := by
      simp only [ConcatenationRule.references, chainRule, List.length_replicate, length]
      rfl
    refine ⟨isName, List.ne_nil_of_length_pos (length ▸ positive), areBodies, ?_, ?_, ?_⟩
    · exact length ▸ used
    · simpa using nonempty
    · rw [references]
      exact once
  exact {
    basic := by simp [concatenation]
    prepend := by simp [concatenation]
    append := by simp [concatenation]
    insert := by simp [concatenation]
    concatenate := by simpa [concatenation] using linear }

private theorem wellFormed_sequence (isName : Atom.IsName name) (isLeft : IsBody left)
    (isRight : IsBody right) : (sequence name left right).WellFormed := by
  apply wellFormed_concatenation (by decide : IsExact 2 _) rfl isName
  simpa using And.intro isLeft isRight

private theorem isBody_pairName (family : BracketFamily) : IsBody (pairName family) := by
  cases family with
  | parenthesis => exact ⟨by decide +kernel, by decide⟩
  | bracket => exact ⟨by decide +kernel, by decide⟩

private theorem wellFormed_wrap (isName : Atom.IsName name) (isInner : IsBody inner) :
    (wrap name inner family).WellFormed := by
  apply wellFormed_concatenation (by decide : IsExact 2 _) rfl isName
  simpa using And.intro isInner (isBody_pairName family)

private theorem wellFormed_rename (isName : Atom.IsName name) (isInner : IsBody inner) :
    (rename name inner).WellFormed := by
  apply wellFormed_concatenation (by decide : IsExact 1 _) rfl isName
  simpa using isInner

private theorem isName_openerName (family : BracketFamily) (id : Nat) :
    Atom.IsName (openerName family id) := by
  have mark : Atom.IsName "o" := by decide +kernel
  exact ((isBody_pairName family).1.append mark.2).append fun _ =>
    Atom.isNameCharacter_of_mem_decimal

private theorem wellFormed_matchedPairs : (matchedPairs family ids).WellFormed where
  basic := by
    intro rule member
    obtain ⟨id, _, rfl⟩ := List.mem_map.mp member
    exact ⟨isName_openerName family id, family.isLabel_openLabel id⟩
  prepend := by simp [matchedPairs]
  append := by simp [matchedPairs]
  insert := by
    intro rule member
    obtain ⟨id, _, rfl⟩ := List.mem_map.mp member
    exact ⟨⟨(isBody_pairName family).1, isName_openerName family id,
      family.isLabel_closeLabel id, Nat.le_refl 1, Nat.one_pos⟩,
      BracketFamily.labelWith_not_mem (by decide) family id 1⟩
  concatenate := by simp [matchedPairs]

private theorem isBody_startName : IsBody Grammar.startName :=
  ⟨by decide +kernel, by decide⟩

theorem wellFormed_balanced (family : BracketFamily) (ids : List Nat) (passing : BracketFamily)
    (passingIds : List Nat) : (balanced family ids passing passingIds).WellFormed := by
  apply wellFormed_unions
  simp only [List.forall_mem_cons, List.not_mem_nil, false_implies, implies_true, and_true]
  refine ⟨wellFormed_matchedPairs, wellFormed_letters isBody_startName.1,
    wellFormed_neutralLetters isBody_startName.1, ?_, ?_⟩
  · exact wellFormed_sequence isBody_startName.1 isBody_startName isBody_startName
  · exact wellFormed_ifAny (wellFormed_wrap isBody_startName.1 isBody_startName)

theorem wellFormed_interleaved (ids : BracketIds) : (interleaved ids).WellFormed := by
  apply wellFormed_unions
  simp only [List.forall_mem_cons, List.not_mem_nil, false_implies, implies_true, and_true]
  refine ⟨wellFormed_matchedPairs, wellFormed_matchedPairs,
    wellFormed_neutralLetters isBody_startName.1, ?_, ?_, ?_⟩
  · exact wellFormed_sequence isBody_startName.1 isBody_startName isBody_startName
  · exact wellFormed_ifAny (wellFormed_wrap isBody_startName.1 isBody_startName)
  · exact wellFormed_ifAny (wellFormed_wrap isBody_startName.1 isBody_startName)

theorem wellFormed_wrapper (ids : BracketIds) : (wrapper ids).WellFormed := by
  have flat : IsBody flatName := ⟨by decide +kernel, by decide⟩
  have closed : IsBody closedName := ⟨by decide +kernel, by decide⟩
  apply wellFormed_unions
  simp only [List.forall_mem_cons, List.not_mem_nil, false_implies, implies_true, and_true]
  refine ⟨wellFormed_neutralLetters flat.1, wellFormed_letters flat.1,
    wellFormed_letters flat.1, wellFormed_sequence flat.1 flat flat, ?_⟩
  exact {
    basic := by simp
    prepend := by
      intro rule member
      cases List.mem_singleton.mp member
      exact ⟨⟨isBody_startName.1, closed.1, BracketFamily.bracket.isLabel_openLabel wrapperId,
        Nat.one_pos⟩, BracketFamily.labelWith_not_mem (by decide) .bracket wrapperId 1⟩
    append := by
      intro rule member
      cases List.mem_singleton.mp member
      exact ⟨⟨closed.1, flat.1, BracketFamily.bracket.isLabel_closeLabel wrapperId,
        Nat.one_pos⟩, BracketFamily.labelWith_not_mem (by decide) .bracket wrapperId 1⟩
    insert := by simp
    concatenate := by simp }

private theorem isBody_name (state : ParityState) : IsBody state.name := by
  obtain ⟨odd, closesFirst, opensLast⟩ := state
  have letters : ∀ character ∈ (String.ofList (odd.map fun isOdd =>
      if isOdd then 'i' else 'p')).toList, Atom.isNameCharacter character = true := by
    intro character member
    rw [String.toList_ofList] at member
    obtain ⟨isOdd, _, rfl⟩ := List.mem_map.mp member
    cases isOdd with
    | false => decide +kernel
    | true => decide +kernel
  have closing : ∀ character ∈ (if closesFirst then "c" else "").toList,
      Atom.isNameCharacter character = true := by
    cases closesFirst with
    | false => simp
    | true => exact (by decide +kernel : Atom.IsName "c").2
  have opening : ∀ character ∈ (if opensLast then "o" else "").toList,
      Atom.isNameCharacter character = true := by
    cases opensLast with
    | false => simp
    | true => exact (by decide +kernel : Atom.IsName "o").2
  constructor
  · exact ((isBody_startName.1.append letters).append closing).append opening
  · intro same
    have first := congrArg (fun name => name.toList.head?) same
    simp [ParityState.name, Grammar.startName, Grammar.emptyWordName] at first

theorem wellFormed_parity (family : BracketFamily) (ids : List Nat) (passing : BracketFamily)
    (passingIds : List Nat) (classCount : Nat) :
    (parity family ids passing passingIds classCount).WellFormed := by
  have uncounted : IsBody uncountedName := ⟨by decide +kernel, by decide⟩
  apply wellFormed_unions
  simp only [List.forall_mem_cons, List.not_mem_nil, false_implies, implies_true, and_true]
  refine ⟨wellFormed_matchedPairs, wellFormed_neutralLetters uncounted.1, ?_, ?_,
    wellFormed_sequence uncounted.1 uncounted uncounted, ?_,
    wellFormed_rename isBody_startName.1 uncounted,
    wellFormed_rename isBody_startName.1 (isBody_name _)⟩
  · apply wellFormed_unions
    intro grammar member
    obtain ⟨⟨id, place⟩, _, rfl⟩ := List.mem_map.mp member
    exact (wellFormed_letter (isBody_name _).1 (passing.isLabel_closeLabel id)).union
      (wellFormed_letter (isBody_name _).1 (passing.isLabel_openLabel id))
  · apply wellFormed_ifAny
    apply wellFormed_unions
    intro grammar member
    rcases List.mem_cons.mp member with rfl | named
    · exact wellFormed_wrap uncounted.1 uncounted
    · obtain ⟨⟨state, name⟩, isNamed, rfl⟩ := List.mem_map.mp named
      obtain ⟨_, _, same⟩ := List.mem_map.mp isNamed
      cases same
      exact wellFormed_wrap (isBody_name _).1 (isBody_name _)
  · apply wellFormed_unions
    intro grammar member
    obtain ⟨⟨leftState, leftName⟩, isLeft, inJoins⟩ := List.mem_flatMap.mp member
    obtain ⟨_, _, same⟩ := List.mem_map.mp isLeft
    cases same
    rcases List.mem_cons.mp inJoins with rfl | later
    · exact wellFormed_sequence (isBody_name _).1 (isBody_name _) uncounted
    · rcases List.mem_cons.mp later with rfl | pairs
      · exact wellFormed_sequence (isBody_name _).1 uncounted (isBody_name _)
      · obtain ⟨⟨rightState, rightName⟩, isRight, rfl⟩ := List.mem_map.mp pairs
        obtain ⟨_, _, sameRight⟩ := List.mem_map.mp isRight
        cases sameRight
        exact wellFormed_sequence (isBody_name _).1 (isBody_name _) (isBody_name _)

end BracketLanguage

/-- Printed well-formed grammars are read back, and the grammars of all bracket languages
are well formed. -/
theorem read_text_of_wellFormed :
    (∀ grammar : Grammar, grammar.WellFormed → Grammar.read grammar.text = .ok grammar) ∧
      (∀ family ids passing passingIds,
        (BracketLanguage.balanced family ids passing passingIds).WellFormed) ∧
      (∀ family ids passing passingIds classCount,
        (BracketLanguage.parity family ids passing passingIds classCount).WellFormed) ∧
      (∀ ids, (BracketLanguage.interleaved ids).WellFormed) ∧
      ∀ ids, (BracketLanguage.wrapper ids).WellFormed :=
  ⟨fun _ wellFormed => wellFormed.read_text, BracketLanguage.wellFormed_balanced,
    BracketLanguage.wellFormed_parity, BracketLanguage.wellFormed_interleaved,
    BracketLanguage.wellFormed_wrapper⟩

/-- A grammar of all five shapes, with a rule of eleven bodies. -/
def crowdedPairs : Grammar :=
  { nestedPairs with
    concatenate := ⟨"S", List.replicate 11 "A", [(List.range 11).map fun body => ⟨body, 0⟩]⟩ ::
      nestedPairs.concatenate }

theorem read_text_of_wellFormed_crowdedPairs :
    crowdedPairs.WellFormed ∧ Grammar.read crowdedPairs.text = .ok crowdedPairs := by
  have wellFormed : crowdedPairs.WellFormed := by decide +kernel
  exact ⟨wellFormed, read_text_of_wellFormed.1 _ wellFormed⟩

end GrammarReach
