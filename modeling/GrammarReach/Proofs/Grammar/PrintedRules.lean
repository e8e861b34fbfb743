import GrammarReach.Proofs.Bracket.CanonicalLabels
import GrammarReach.Proofs.Grammar.ClauseShapes
import GrammarReach.Proofs.Grammar.ClauseTexts

/-!
# Printed rules

A rule is printed as a clause whose variables name body segments one-to-one.  If the names
and labels of the rule can be read, the printed text is read as that clause; so whether a
rule is read back is a question about its clause alone.
-/

namespace GrammarReach

open Clause

/-! ## Variables -/

namespace Atom

private theorem isNameCharacter_of_isDigit {character : Char}
    (digit : character.isDigit = true) : isNameCharacter character = true := by
  obtain ⟨turns, shape⟩ : ∃ turns, Text.alphanumericTurns = 0x30 :: 0x3A :: turns := ⟨_, rfl⟩
  have bounds : 0x30 ≤ character.toNat ∧ character.toNat < 0x3A := by
    simp only [Char.isDigit, Bool.and_eq_true, decide_eq_true_eq, ge_iff_le] at digit
    have low : '0'.toNat ≤ character.toNat := digit.1
    have high : character.toNat ≤ '9'.toNat := digit.2
    exact ⟨low, Nat.lt_succ_of_le high⟩
  have later : ¬ 0x3A ≤ character.toNat := by omega
  simp [isNameCharacter, Text.isAlphanumeric, shape, bounds.1, later]

theorem IsName.append {left right : Nonterminal} (leftName : IsName left)
    (rightName : ∀ character ∈ right.toList, isNameCharacter character = true) :
    IsName (left ++ right) := by
  constructor
  · rw [String.toList_append]
    exact List.append_ne_nil_of_left_ne_nil leftName.1 _
  · intro character member
    rw [String.toList_append, List.mem_append] at member
    rcases member with inLeft | inRight
    · exact leftName.2 character inLeft
    · exact rightName character inRight

theorem isNameCharacter_of_mem_decimal {value : Nat} {character : Char}
    (member : character ∈ (Text.decimal value).toList) : isNameCharacter character = true :=
  isNameCharacter_of_isDigit (Text.isDigit_of_mem_decimal member)

end Atom

namespace Clause

private theorem isName_of_mem_variableLetters :
    ∀ letter ∈ variableLetters, letter.toList.length = 1 ∧ letter ≠ "A" ∧ Atom.IsName letter := by
  decide +kernel

theorem isName_variableName (body segment : Nat) : Atom.IsName (variableName body segment) := by
  have digits : ∀ value, ∀ character ∈ (Text.decimal value).toList,
      Atom.isNameCharacter character = true :=
    fun _ _ => Atom.isNameCharacter_of_mem_decimal
  unfold variableName
  split
  · rename_i letter found
    obtain ⟨_, _, isName⟩ := isName_of_mem_variableLetters letter (List.mem_of_getElem? found)
    exact isName.append (digits segment)
  · have first : Atom.IsName "A" := by decide +kernel
    have mark : Atom.IsName "_" := by decide +kernel
    exact ((first.append (digits body)).append mark.2).append (digits segment)

private theorem line_not_mem_decimal (value : Nat) : '_' ∉ (Text.decimal value).toList := by
  intro member
  exact absurd (Text.isDigit_of_mem_decimal member) (by decide)

private theorem letters_inj {letter other : String} {segment otherSegment : Nat}
    (letterLength : letter.toList.length = 1) (otherLength : other.toList.length = 1)
    (same : letter ++ Text.decimal segment = other ++ Text.decimal otherSegment) :
    letter = other ∧ segment = otherSegment := by
  have characters := congrArg String.toList same
  rw [String.toList_append, String.toList_append] at characters
  obtain ⟨letters, digits⟩ :=
    List.append_inj characters (letterLength.trans otherLength.symm)
  exact ⟨String.toList_inj.mp letters, Text.decimal_injective (String.toList_inj.mp digits)⟩

private theorem letter_ne_numbered {letter : String} (member : letter ∈ variableLetters)
    {body segment otherSegment : Nat} :
    letter ++ Text.decimal segment ≠
      "A" ++ Text.decimal body ++ "_" ++ Text.decimal otherSegment := by
  intro same
  obtain ⟨single, different, _⟩ := isName_of_mem_variableLetters letter member
  have characters := congrArg String.toList same
  rw [String.append_assoc, String.append_assoc, String.toList_append, String.toList_append]
    at characters
  have first := (List.append_inj characters (single.trans (by decide))).1
  exact different (String.toList_inj.mp first)

private theorem numbered_inj {body segment otherBody otherSegment : Nat}
    (same : "A" ++ Text.decimal body ++ "_" ++ Text.decimal segment =
      "A" ++ Text.decimal otherBody ++ "_" ++ Text.decimal otherSegment) :
    body = otherBody ∧ segment = otherSegment := by
  have behind : (Text.decimal body).toList ++ '_' :: (Text.decimal segment).toList =
      (Text.decimal otherBody).toList ++ '_' :: (Text.decimal otherSegment).toList := by
    simpa using congrArg String.toList same
  have cut := congrArg (Text.cutAt '_') behind
  rw [Text.cutAt_append (line_not_mem_decimal _), Text.cutAt_append (line_not_mem_decimal _)]
    at cut
  obtain ⟨bodies, segments⟩ := Prod.mk.inj (Option.some.inj cut)
  exact ⟨Text.decimal_injective (String.toList_inj.mp bodies),
    Text.decimal_injective (String.toList_inj.mp segments)⟩

/-- A variable names one segment of one body. -/
theorem variableName_inj {body segment otherBody otherSegment : Nat} :
    variableName body segment = variableName otherBody otherSegment ↔
      body = otherBody ∧ segment = otherSegment := by
  constructor
  · intro same
    unfold variableName at same
    cases found : variableLetters[body]? with
    | some letter =>
        have member := List.mem_of_getElem? found
        cases otherFound : variableLetters[otherBody]? with
        | some other =>
            have otherMember := List.mem_of_getElem? otherFound
            simp only [found, otherFound] at same
            obtain ⟨letters, segments⟩ :=
              letters_inj (isName_of_mem_variableLetters letter member).1
                (isName_of_mem_variableLetters other otherMember).1 same
            refine ⟨?_, segments⟩
            apply (List.getElem?_inj (List.getElem?_eq_some_iff.mp found).1
              (by decide : variableLetters.Nodup)).mp
            rw [found, otherFound, letters]
        | none =>
            simp only [found, otherFound] at same
            exact absurd same (letter_ne_numbered member)
    | none =>
        cases otherFound : variableLetters[otherBody]? with
        | some other =>
            simp only [found, otherFound] at same
            exact absurd same.symm (letter_ne_numbered (List.mem_of_getElem? otherFound))
        | none =>
            simp only [found, otherFound] at same
            exact numbered_inj same
  · rintro ⟨rfl, rfl⟩
    rfl

/-- The variables of a body, each an argument of its own. -/
def variableArguments (body arity : Nat) : List (List String) :=
  (variableNames body arity).map fun name => [name]

/-- The arguments of a printed body.  Without a segment it has one empty argument. -/
def bodyArguments (body arity : Nat) : List (List String) :=
  if arity = 0 then [[]] else variableArguments body arity

section Variables

variable {body arity segment : Nat}

@[simp] theorem length_variableNames : (variableNames body arity).length = arity := by
  simp [variableNames]

@[simp] theorem length_variableArguments : (variableArguments body arity).length = arity := by
  simp [variableArguments]

theorem getElem?_variableArguments (inside : segment < arity) :
    (variableArguments body arity)[segment]? = some [variableName body segment] := by
  simp [variableArguments, variableNames, inside]

theorem length_of_mem_variableArguments {argument : List String}
    (member : argument ∈ variableArguments body arity) : argument.length = 1 := by
  obtain ⟨name, _, rfl⟩ := List.mem_map.mp member
  rfl

@[simp] theorem flatten_variableArguments :
    (variableArguments body arity).flatten = variableNames body arity := by
  rw [variableArguments, ← List.flatMap_def]
  exact List.flatMap_singleton' _

theorem mem_variableNames {name : String} :
    name ∈ variableNames body arity ↔ ∃ segment < arity, variableName body segment = name := by
  simp [variableNames]

@[simp] theorem variableName_mem_variableNames :
    variableName body segment ∈ variableNames body arity ↔ segment < arity := by
  rw [mem_variableNames]
  constructor
  · rintro ⟨other, inside, same⟩
    obtain ⟨-, rfl⟩ := variableName_inj.mp same
    exact inside
  · exact fun inside => ⟨segment, inside, rfl⟩

theorem getElem?_modify_variableArguments {index : Nat} {change : List String → List String}
    {argument : List String} :
    ((variableArguments body arity).modify index change)[segment]? = some argument ↔
      segment < arity ∧ argument = if index = segment then change [variableName body segment]
        else [variableName body segment] := by
  rw [List.getElem?_modify]
  by_cases inside : segment < arity
  · rw [getElem?_variableArguments inside]
    simp only [Option.map_eq_map, Option.map_some, Option.some.injEq, inside, true_and]
    exact eq_comm
  · have none : (variableArguments body arity)[segment]? = none := by
      rw [List.getElem?_eq_none_iff, length_variableArguments]
      omega
    simp [inside]

theorem getElem?_insertIdx_variableArguments {index : Nat} {inserted argument : List String}
    (found : ((variableArguments body arity).insertIdx index inserted)[segment]? =
      some argument) :
    (segment = index ∧ argument = inserted) ∨
      ∃ other < arity, argument = [variableName body other] := by
  have ofVariables : ∀ {place : Nat}, (variableArguments body arity)[place]? = some argument →
      ∃ other < arity, argument = [variableName body other] := by
    intro place inVariables
    have inside := (List.getElem?_eq_some_iff.mp inVariables).1
    rw [length_variableArguments] at inside
    rw [getElem?_variableArguments inside] at inVariables
    exact ⟨place, inside, (Option.some.inj inVariables).symm⟩
  rw [List.getElem?_insertIdx] at found
  split at found
  · exact .inr (ofVariables found)
  · split at found
    · rename_i here
      split at found
      · exact .inl ⟨here, (Option.some.inj found).symm⟩
      · cases found
    · exact .inr (ofVariables found)

theorem bodyArguments_ne_nil : bodyArguments body arity ≠ [] := by
  unfold bodyArguments
  split
  · simp
  · rename_i positive
    apply List.ne_nil_of_length_pos
    rw [length_variableArguments]
    omega

theorem bodyArguments_eq (positive : 0 < arity) :
    bodyArguments body arity = variableArguments body arity :=
  if_neg (Nat.ne_of_gt positive)

end Variables

end Clause

/-! ## Printed clauses -/

/-- The atoms that a rule is printed as. -/
def Rule.clause : Rule → AtomClause
  | .basic rule => ⟨⟨rule.head, [[labelToken rule.label]]⟩, []⟩
  | .prepend rule =>
      ⟨⟨rule.head, (variableArguments 0 rule.arity).modify rule.index
        (labelToken rule.label :: ·)⟩, [⟨rule.body, variableArguments 0 rule.arity⟩]⟩
  | .append rule =>
      ⟨⟨rule.head, (variableArguments 0 rule.arity).modify rule.index
        (· ++ [labelToken rule.label])⟩, [⟨rule.body, variableArguments 0 rule.arity⟩]⟩
  | .insert rule =>
      ⟨⟨rule.head, (variableArguments 0 rule.bodyArity).insertIdx
        (min rule.index rule.bodyArity) [labelToken rule.label]⟩,
        [⟨rule.body, variableArguments 0 rule.bodyArity⟩]⟩
  | .concatenate rule =>
      ⟨⟨rule.head, rule.wiring.map fun chain =>
        chain.map fun reference => variableName reference.body reference.segment⟩,
        rule.bodies.zipIdx.map fun (name, position) =>
          ⟨name, bodyArguments position (rule.bodyArity position)⟩⟩

private theorem map_intercalate_variableArguments (body arity : Nat) :
    (variableArguments body arity).map " ".intercalate = variableNames body arity := by
  rw [variableArguments, List.map_map]
  exact List.map_id _

private theorem map_intercalate_modify {arity index : Nat}
    {change : List String → List String} {extend : String → String}
    (changes : ∀ name, " ".intercalate (change [name]) = extend name) :
    ((variableArguments 0 arity).modify index change).map " ".intercalate =
      (List.range arity).map fun segment =>
        if segment = index then extend (variableName 0 segment) else variableName 0 segment := by
  apply List.ext_getElem
  · simp
  · intro segment inside _
    have below : segment < arity := by simpa using inside
    have placed : (variableArguments 0 arity)[segment]? = some [variableName 0 segment] :=
      getElem?_variableArguments below
    have here := List.getElem?_eq_some_iff.mp placed
    rw [List.getElem_map, List.getElem_modify, here.2, List.getElem_map, List.getElem_range]
    by_cases same : index = segment
    · rw [if_pos same, if_pos same.symm, changes]
    · rw [if_neg same, if_neg (Ne.symm same)]
      rfl

private theorem text_bodyArguments (name : Nonterminal) (body arity : Nat) :
    (Atom.mk name (bodyArguments body arity)).text = atomText name (variableNames body arity) := by
  unfold bodyArguments Atom.text
  split
  · rename_i none
    rw [none]
    rfl
  · rw [map_intercalate_variableArguments]

/-- A rule is printed as its clause.  A concatenation without bodies has no clause. -/
theorem Rule.text_eq {rule : Rule} (indexed : rule.Indexed) : rule.text = rule.clause.text := by
  have body (name : Nonterminal) (arity : Nat) :
      (Atom.mk name (variableArguments 0 arity)).text =
        atomText name (variableNames 0 arity) := by
    rw [Atom.text, map_intercalate_variableArguments]
  cases rule with
  | basic rule => rfl
  | prepend rule =>
      have head := @map_intercalate_modify rule.arity rule.index (labelToken rule.label :: ·)
        (fun name => labelToken rule.label ++ " " ++ name) fun name => rfl
      simp only [Rule.text, ExtensionRule.prependText, ExtensionRule.textWith, clause,
        AtomClause.text, List.map_singleton, body]
      rw [Atom.text, head]
  | append rule =>
      have head := @map_intercalate_modify rule.arity rule.index (· ++ [labelToken rule.label])
        (fun name => name ++ " " ++ labelToken rule.label) fun name => rfl
      simp only [Rule.text, ExtensionRule.appendText, ExtensionRule.textWith, clause,
        AtomClause.text, List.map_singleton, body]
      rw [Atom.text, head]
  | insert rule =>
      simp only [Rule.text, InsertionRule.text, clause, AtomClause.text, List.map_singleton, body]
      rw [Atom.text, List.map_insertIdx, map_intercalate_variableArguments]
      rfl
  | concatenate rule =>
      have bodies : rule.bodies.zipIdx.map (fun (name, position) =>
          atomText name (variableNames position (rule.bodyArity position))) =
          (Rule.concatenate rule).clause.bodies.map Atom.text := by
        simp [clause, Function.comp_def, text_bodyArguments]
      have head : (Rule.concatenate rule).clause.head.text =
          atomText rule.head (rule.wiring.map fun chain => " ".intercalate (chain.map
            fun reference => variableName reference.body reference.segment)) := by
        simp [clause, Atom.text, Function.comp_def]
      rw [Rule.text, ConcatenationRule.text, bodies, ← head]
      unfold AtomClause.text
      split
      · rename_i none
        have some : rule.bodies ≠ [] := indexed.bodies_ne_nil
        simp [clause, some] at none
      · rfl

/-! ## Rules that can be read -/

/-- The label is epsilon or a token that does not stand for it. -/
def IsLabel (label : Label) : Prop :=
  label = Grammar.epsilon ∨ Atom.IsToken label ∧ label ≠ epsilonToken

instance (label : Label) : Decidable (IsLabel label) :=
  inferInstanceAs (Decidable (_ ∨ _))

theorem IsLabel.isToken {label : Label} (isLabel : IsLabel label) :
    Atom.IsToken (labelToken label) := by
  unfold labelToken
  rcases isLabel with rfl | ⟨isToken, _⟩
  · rw [if_pos rfl]
    decide +kernel
  · split
    · decide +kernel
    · exact isToken

theorem IsLabel.labelOf_labelToken {label : Label} (isLabel : IsLabel label) :
    AtomClause.labelOf (labelToken label) = label := by
  unfold labelToken AtomClause.labelOf
  rcases isLabel with rfl | ⟨_, different⟩
  · rfl
  · by_cases silent : label = Grammar.epsilon
    · simp [silent]
    · simp [silent, different]

theorem isLabel_labelOf {token : String} (isToken : Atom.IsToken token) :
    IsLabel (AtomClause.labelOf token) := by
  unfold AtomClause.labelOf
  split
  · exact .inl rfl
  · rename_i different
    exact .inr ⟨isToken, different⟩

/-- The name of the head and the label can be read. -/
structure BasicRule.Formed (rule : BasicRule) : Prop where
  head : Atom.IsName rule.head
  label : IsLabel rule.label

instance (rule : BasicRule) : Decidable rule.Formed :=
  decidable_of_iff (Atom.IsName rule.head ∧ IsLabel rule.label)
    ⟨fun ⟨head, label⟩ => ⟨head, label⟩, fun ⟨head, label⟩ => ⟨head, label⟩⟩

/-- Names and label can be read, and the body has the segment that is lengthened. -/
structure ExtensionRule.Formed (rule : ExtensionRule) : Prop where
  head : Atom.IsName rule.head
  body : Atom.IsName rule.body
  label : IsLabel rule.label
  index : rule.index < rule.arity

instance (rule : ExtensionRule) : Decidable rule.Formed :=
  decidable_of_iff (Atom.IsName rule.head ∧ Atom.IsName rule.body ∧ IsLabel rule.label ∧
      rule.index < rule.arity)
    ⟨fun ⟨head, body, label, index⟩ => ⟨head, body, label, index⟩,
      fun ⟨head, body, label, index⟩ => ⟨head, body, label, index⟩⟩

/-- Names and label can be read, and the body has segments to insert one among them. -/
structure InsertionRule.Formed (rule : InsertionRule) : Prop where
  head : Atom.IsName rule.head
  body : Atom.IsName rule.body
  label : IsLabel rule.label
  index : rule.index ≤ rule.bodyArity
  arity : 0 < rule.bodyArity

instance (rule : InsertionRule) : Decidable rule.Formed :=
  decidable_of_iff (Atom.IsName rule.head ∧ Atom.IsName rule.body ∧ IsLabel rule.label ∧
      rule.index ≤ rule.bodyArity ∧ 0 < rule.bodyArity)
    ⟨fun ⟨head, body, label, index, arity⟩ => ⟨head, body, label, index, arity⟩,
      fun ⟨head, body, label, index, arity⟩ => ⟨head, body, label, index, arity⟩⟩

/-- Names can be read, no body is the empty word, and the wiring refers to bodies. -/
structure ConcatenationRule.Formed (rule : ConcatenationRule) : Prop where
  proper : rule.Proper
  head : Atom.IsName rule.head
  bodies : ∀ name ∈ rule.bodies, Atom.IsName name ∧ name ≠ Grammar.emptyWordName
  wiring : rule.wiring ≠ []

/-- What rules that were read from clauses have in common. -/
def Rule.Formed : Rule → Prop
  | .basic rule => rule.Formed
  | .prepend rule => rule.Formed
  | .append rule => rule.Formed
  | .insert rule => rule.Formed
  | .concatenate rule => rule.Formed

namespace AtomClause

variable {clause : AtomClause} {rule : Rule}

private theorem OnlyAt.isLabel {atom : Atom} {kind : List String → Bool} {index : Nat}
    {tokens : List String} (onlyAt : OnlyAt atom.arguments kind index tokens)
    (written : atom.Written) {token : String} (member : token ∈ tokens) :
    IsLabel (labelOf token) :=
  isLabel_labelOf (written.tokens token
    (List.mem_flatten_of_mem (List.mem_of_getElem? onlyAt.found) member))

/-- Rules that were read from written clauses can be read. -/
theorem Shape.formed (shape : clause.Shape rule) (written : clause.Written) : rule.Formed := by
  have indexed := shape.indexed
  cases shape with
  | basic none single =>
      refine ⟨written.head.name, isLabel_labelOf (written.head.tokens _ ?_)⟩
      rw [Atom.tokens, single]
      simp
  | append only same onlyAt bound terminal =>
      have body := written.bodies _ (only ▸ List.mem_singleton.mpr rfl)
      exact ⟨written.head.name, body.name, onlyAt.isLabel written.head (by simp), indexed⟩
  | prepend only same onlyAt bound terminal =>
      have body := written.bodies _ (only ▸ List.mem_singleton.mpr rfl)
      exact ⟨written.head.name, body.name, onlyAt.isLabel written.head (by simp), indexed⟩
  | insert only longer onlyAt =>
      have body := written.bodies _ (only ▸ List.mem_singleton.mpr rfl)
      exact ⟨written.head.name, body.name, onlyAt.isLabel written.head (by simp), indexed,
        List.length_pos_of_ne_nil body.arguments⟩
  | concatenate concatenates =>
      refine ⟨indexed, concatenates.head ▸ written.head.name, ?_, ?_⟩
      · intro name member
        rw [concatenates.bodies] at member
        obtain ⟨atom, isProper, rfl⟩ := List.mem_map.mp member
        obtain ⟨inBodies, notEmpty⟩ := List.mem_filter.mp isProper
        exact ⟨(written.bodies atom inBodies).name, by simpa using notEmpty⟩
      · intro none
        apply written.head.arguments
        apply List.eq_nil_of_length_eq_zero
        rw [concatenates.wired.length_eq, none]
        rfl

end AtomClause

namespace Rule

variable {rule : Rule}

theorem Formed.indexed (formed : rule.Formed) : rule.Indexed := by
  cases rule with
  | basic rule => trivial
  | prepend rule => exact ExtensionRule.Formed.index formed
  | append rule => exact ExtensionRule.Formed.index formed
  | insert rule => exact InsertionRule.Formed.index formed
  | concatenate rule => exact ConcatenationRule.Formed.proper formed

private theorem written_variableArguments {name : Nonterminal} (isName : Atom.IsName name)
    {arity : Nat} (positive : 0 < arity) :
    (Atom.mk name (variableArguments 0 arity)).Written := by
  refine ⟨isName, ?_, ?_⟩
  · apply List.ne_nil_of_length_pos
    rwa [length_variableArguments]
  · intro token member
    rw [Atom.tokens, flatten_variableArguments, mem_variableNames] at member
    obtain ⟨segment, _, rfl⟩ := member
    exact (isName_variableName 0 segment).isToken

private theorem written_modify {name : Nonterminal} (isName : Atom.IsName name)
    {arity index : Nat} {change : List String → List String} (inside : index < arity)
    (tokens : ∀ token ∈ change [variableName 0 index], Atom.IsToken token) :
    (Atom.mk name ((variableArguments 0 arity).modify index change)).Written := by
  refine ⟨isName, ?_, ?_⟩
  · apply List.ne_nil_of_length_pos
    rw [List.length_modify, length_variableArguments]
    exact Nat.zero_lt_of_lt inside
  · intro token member
    obtain ⟨argument, inArguments, inArgument⟩ := List.mem_flatten.mp member
    obtain ⟨segment, found⟩ := List.mem_iff_getElem?.mp inArguments
    obtain ⟨_, rfl⟩ := getElem?_modify_variableArguments.mp found
    split at inArgument
    · rename_i here
      exact tokens token (here ▸ inArgument)
    · rw [List.mem_singleton.mp inArgument]
      exact (isName_variableName 0 segment).isToken

private theorem written_insertIdx {name : Nonterminal} (isName : Atom.IsName name)
    {arity index : Nat} {token : String} (positive : 0 < arity) (isToken : Atom.IsToken token) :
    (Atom.mk name ((variableArguments 0 arity).insertIdx index [token])).Written := by
  refine ⟨isName, ?_, ?_⟩
  · apply List.ne_nil_of_length_pos
    apply Nat.lt_of_lt_of_le positive
    rw [List.length_insertIdx, length_variableArguments]
    split
    · exact Nat.le_succ arity
    · exact Nat.le_refl arity
  · intro other member
    obtain ⟨argument, inArguments, inArgument⟩ := List.mem_flatten.mp member
    obtain ⟨segment, found⟩ := List.mem_iff_getElem?.mp inArguments
    rcases getElem?_insertIdx_variableArguments found with ⟨_, rfl⟩ | ⟨place, _, rfl⟩
    · rw [List.mem_singleton.mp inArgument]
      exact isToken
    · rw [List.mem_singleton.mp inArgument]
      exact (isName_variableName 0 place).isToken

private theorem written_concatenate {rule : ConcatenationRule} (formed : rule.Formed) :
    (Rule.concatenate rule).clause.Written := by
  refine ⟨⟨formed.head, mt List.map_eq_nil_iff.mp formed.wiring, ?_⟩, ?_⟩
  · intro token member
    obtain ⟨argument, inArguments, inArgument⟩ := List.mem_flatten.mp member
    obtain ⟨chain, _, rfl⟩ := List.mem_map.mp inArguments
    obtain ⟨reference, _, rfl⟩ := List.mem_map.mp inArgument
    exact (isName_variableName reference.body reference.segment).isToken
  · intro body member
    obtain ⟨⟨name, position⟩, numbered, rfl⟩ := List.mem_map.mp member
    refine ⟨(formed.bodies name (List.fst_mem_of_mem_zipIdx numbered)).1, bodyArguments_ne_nil, ?_⟩
    intro token inTokens
    obtain ⟨argument, inArguments, inArgument⟩ := List.mem_flatten.mp inTokens
    simp only [bodyArguments] at inArguments
    split at inArguments
    · rw [List.mem_singleton.mp inArguments] at inArgument
      cases inArgument
    · obtain ⟨other, isVariable, rfl⟩ := List.mem_map.mp inArguments
      obtain ⟨segment, _, rfl⟩ := mem_variableNames.mp isVariable
      rw [List.mem_singleton.mp inArgument]
      exact (isName_variableName position segment).isToken

/-- The clause of a rule that can be read is written as clauses are. -/
theorem Formed.written (formed : rule.Formed) : rule.clause.Written := by
  cases rule with
  | basic rule =>
      obtain ⟨head, label⟩ := formed
      refine ⟨⟨head, by simp [clause], ?_⟩, by simp [clause]⟩
      intro token member
      rw [List.mem_singleton.mp member]
      exact label.isToken
  | prepend rule =>
      obtain ⟨head, body, label, inside⟩ := formed
      refine ⟨written_modify head inside ?_, ?_⟩
      · intro token member
        rcases List.mem_pair.mp member with rfl | rfl
        · exact label.isToken
        · exact (isName_variableName 0 _).isToken
      · intro atom member
        rw [List.mem_singleton.mp member]
        exact written_variableArguments body (Nat.zero_lt_of_lt inside)
  | append rule =>
      obtain ⟨head, body, label, inside⟩ := formed
      refine ⟨written_modify head inside ?_, ?_⟩
      · intro token member
        rcases List.mem_pair.mp member with rfl | rfl
        · exact (isName_variableName 0 _).isToken
        · exact label.isToken
      · intro atom member
        rw [List.mem_singleton.mp member]
        exact written_variableArguments body (Nat.zero_lt_of_lt inside)
  | insert rule =>
      obtain ⟨head, body, label, inside, positive⟩ := formed
      refine ⟨written_insertIdx head positive label.isToken, ?_⟩
      intro atom member
      rw [List.mem_singleton.mp member]
      exact written_variableArguments body positive
  | concatenate rule => exact written_concatenate formed

theorem Formed.read_text (formed : rule.Formed) : Rule.read rule.text = rule.clause.toRule := by
  rw [Rule.text_eq formed.indexed, AtomClause.read_text formed.written]

end Rule

end GrammarReach
