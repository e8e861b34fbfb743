import GrammarReach.Proofs.Grammar.PrintedRules
import GrammarReach.Proofs.Saturation.SegmentCounts

/-!
# Reading printed rules

A printed rule is read back unless its clause has another shape.  That is so when the label
of a unary rule is one of the printed variables, when no segment of some body is used, and
when a rearrangement of one body looks like several extensions.
-/

namespace GrammarReach

open Clause

/-! ## Rules that read back -/

/-- Every body has a segment that is used, and chains of several segments do not make the
rule look like an extension of its only body at several places. -/
structure ConcatenationRule.ReadsBack (rule : ConcatenationRule) : Prop where
  used : ∀ position < rule.bodies.length, 0 < rule.bodyArity position
  few : rule.bodies.length = 1 → rule.wiring.length = rule.bodyArity 0 →
    (rule.wiring.filter fun chain => decide (1 < chain.length)).length ≤ 1

instance (rule : ConcatenationRule) : Decidable rule.ReadsBack :=
  decidable_of_iff (_ ∧ _) ⟨fun both => ⟨both.1, both.2⟩, fun both => ⟨both.used, both.few⟩⟩

/-- The printed clause of the rule has the shape of the rule. -/
def Rule.ReadsBack : Rule → Prop
  | .basic _ => True
  | .prepend rule => rule.label ∉ variableNames 0 rule.arity
  | .append rule => rule.label ∉ variableNames 0 rule.arity
  | .insert rule => rule.label ∉ variableNames 0 rule.bodyArity
  | .concatenate rule => rule.ReadsBack

instance : (rule : Rule) → Decidable rule.ReadsBack
  | .basic _ => inferInstanceAs (Decidable True)
  | .prepend _ => inferInstanceAs (Decidable (_ ∉ _))
  | .append _ => inferInstanceAs (Decidable (_ ∉ _))
  | .insert _ => inferInstanceAs (Decidable (_ ∉ _))
  | .concatenate rule => inferInstanceAs (Decidable rule.ReadsBack)

def Rule.isConcatenation : Rule → Bool
  | .concatenate _ => true
  | _ => false

namespace Clause

theorem toList_variableName_zero (segment : Nat) :
    (variableName 0 segment).toList = 'X' :: (Text.decimal segment).toList := by
  have shape : variableName 0 segment = "X" ++ Text.decimal segment := rfl
  rw [shape, String.toList_append]
  rfl

private theorem labelToken_mem_iff {label : Label} {arity : Nat} :
    labelToken label ∈ variableNames 0 arity ↔ label ∈ variableNames 0 arity := by
  unfold labelToken
  split
  · rename_i silent
    apply iff_of_false
    · rw [mem_variableNames]
      rintro ⟨segment, _, same⟩
      have characters := congrArg String.toList same
      rw [toList_variableName_zero] at characters
      cases (List.cons.inj characters).1
    · rw [mem_variableNames]
      rintro ⟨segment, _, same⟩
      have characters := congrArg String.toList same
      rw [toList_variableName_zero, silent] at characters
      cases characters
  · exact Iff.rfl

end Clause

namespace AtomClause

variable {clause : AtomClause}

theorem Shape.isConcatenation_of_bound {rule : Rule} (shape : clause.Shape rule) {body : Atom}
    (only : clause.bodies = [body])
    (bound : ∀ argument ∈ clause.head.arguments, ∀ token ∈ argument, token ∈ body.tokens) :
    rule.isConcatenation = true := by
  cases shape with
  | basic none =>
      rw [only] at none
      cases none
  | @append other index _ terminal isOnly _ onlyAt _ isTerminal =>
      cases only.symm.trans isOnly
      exact absurd (bound _ (List.mem_of_getElem? onlyAt.found) terminal (by simp)) isTerminal
  | @prepend other index _ terminal isOnly _ onlyAt _ isTerminal =>
      cases only.symm.trans isOnly
      exact absurd (bound _ (List.mem_of_getElem? onlyAt.found) terminal (by simp)) isTerminal
  | @insert other index terminal isOnly _ onlyAt =>
      cases only.symm.trans isOnly
      have inBody := bound _ (List.mem_of_getElem? onlyAt.found) terminal (by simp)
      have introduced := onlyAt.isKind
      simp [isIntroduced, inBody] at introduced
  | concatenate => rfl

end AtomClause

/-! ## Unary rules -/

namespace Rule

open AtomClause

private theorem onlyAt_modify {arity index : Nat} {change : List String → List String}
    (inside : index < arity) (long : isExtended (change [variableName 0 index]) = true) :
    OnlyAt ((variableArguments 0 arity).modify index change) isExtended index
      (change [variableName 0 index]) := by
  refine ⟨?_, long, ?_⟩
  · rw [getElem?_modify_variableArguments, if_pos rfl]
    exact ⟨inside, rfl⟩
  · intro other argument found extended
    obtain ⟨_, rfl⟩ := getElem?_modify_variableArguments.mp found
    by_contra different
    rw [if_neg (Ne.symm different)] at extended
    cases extended

private theorem fresh_token {label : Label} {arity : Nat}
    (fresh : label ∉ variableNames 0 arity) (name : Nonterminal) :
    labelToken label ∉ (Atom.mk name (variableArguments 0 arity)).tokens := by
  rwa [Atom.tokens, flatten_variableArguments, labelToken_mem_iff]

private theorem bound_variable {arity index : Nat} (inside : index < arity)
    (name : Nonterminal) :
    variableName 0 index ∈ (Atom.mk name (variableArguments 0 arity)).tokens := by
  rwa [Atom.tokens, flatten_variableArguments, variableName_mem_variableNames]

private theorem shape_prepend {rule : ExtensionRule} (formed : rule.Formed)
    (fresh : rule.label ∉ variableNames 0 rule.arity) :
    (Rule.prepend rule).clause.Shape (.prepend rule) := by
  have onlyAt := @onlyAt_modify rule.arity rule.index (labelToken rule.label :: ·)
    formed.index rfl
  have shape := @Shape.prepend (Rule.prepend rule).clause
    ⟨rule.body, variableArguments 0 rule.arity⟩ rule.index (variableName 0 rule.index)
    (labelToken rule.label) rfl (List.length_modify ..) onlyAt
    (bound_variable formed.index rule.body) (fresh_token fresh rule.body)
  rw [formed.label.labelOf_labelToken, length_variableArguments] at shape
  exact shape

private theorem shape_append {rule : ExtensionRule} (formed : rule.Formed)
    (fresh : rule.label ∉ variableNames 0 rule.arity) :
    (Rule.append rule).clause.Shape (.append rule) := by
  have onlyAt := @onlyAt_modify rule.arity rule.index (· ++ [labelToken rule.label])
    formed.index rfl
  have shape := @Shape.append (Rule.append rule).clause
    ⟨rule.body, variableArguments 0 rule.arity⟩ rule.index (variableName 0 rule.index)
    (labelToken rule.label) rfl (List.length_modify ..) onlyAt
    (bound_variable formed.index rule.body) (fresh_token fresh rule.body)
  rw [formed.label.labelOf_labelToken, length_variableArguments] at shape
  exact shape

private theorem onlyAt_insertIdx {arity index : Nat} {label : Label} (inside : index ≤ arity)
    (fresh : label ∉ variableNames 0 arity) (name : Nonterminal) :
    OnlyAt ((variableArguments 0 arity).insertIdx index [labelToken label])
      (isIntroduced ⟨name, variableArguments 0 arity⟩) index [labelToken label] := by
  have isFresh := fresh_token fresh name
  refine ⟨?_, ?_, ?_⟩
  · rw [List.getElem?_insertIdx_self, length_variableArguments, if_pos inside]
  · simpa [isIntroduced] using isFresh
  · intro other argument found introduced
    rcases getElem?_insertIdx_variableArguments found with ⟨same, _⟩ | ⟨place, below, rfl⟩
    · exact same
    · have bound := bound_variable below name
      simp [isIntroduced, bound] at introduced

private theorem shape_insert {rule : InsertionRule} (formed : rule.Formed)
    (fresh : rule.label ∉ variableNames 0 rule.bodyArity) :
    (Rule.insert rule).clause.Shape (.insert rule) := by
  have index : min rule.index rule.bodyArity = rule.index := Nat.min_eq_left formed.index
  have onlyAt := onlyAt_insertIdx formed.index fresh rule.body
  have longer : ((variableArguments 0 rule.bodyArity).insertIdx rule.index
      [labelToken rule.label]).length = (variableArguments 0 rule.bodyArity).length + 1 := by
    rw [List.length_insertIdx, length_variableArguments, if_pos formed.index]
  have shape := @Shape.insert (Rule.insert rule).clause
    ⟨rule.body, variableArguments 0 rule.bodyArity⟩ rule.index (labelToken rule.label) rfl
    (by simpa only [clause, index] using longer) (by simpa only [clause, index] using onlyAt)
  rw [formed.label.labelOf_labelToken, length_variableArguments] at shape
  exact shape

/-! ## Concatenations -/

section Concatenations

variable {rule : ConcatenationRule}

private theorem getElem?_bodies {position : Nat} {name : Nonterminal}
    (found : rule.bodies[position]? = some name) :
    (Rule.concatenate rule).clause.bodies[position]? =
      some ⟨name, bodyArguments position (rule.bodyArity position)⟩ := by
  simp [clause, found]

private theorem exists_of_mem_bodies {atom : Atom}
    (member : atom ∈ (Rule.concatenate rule).clause.bodies) :
    ∃ name position, rule.bodies[position]? = some name ∧
      atom = ⟨name, bodyArguments position (rule.bodyArity position)⟩ := by
  obtain ⟨⟨name, position⟩, numbered, rfl⟩ := List.mem_map.mp member
  exact ⟨name, position, List.mk_mem_zipIdx_iff_getElem?.mp numbered, rfl⟩

private theorem name_ne_of_mem_bodies (formed : rule.Formed) {atom : Atom}
    (member : atom ∈ (Rule.concatenate rule).clause.bodies) :
    atom.name ≠ Grammar.emptyWordName := by
  obtain ⟨name, position, found, rfl⟩ := exists_of_mem_bodies member
  exact (formed.bodies name (List.mem_of_getElem? found)).2

private theorem properBodies_clause (formed : rule.Formed) :
    properBodies (Rule.concatenate rule).clause.bodies = (Rule.concatenate rule).clause.bodies := by
  apply List.filter_eq_self.mpr
  intro atom member
  simpa using name_ne_of_mem_bodies formed member

private theorem emptyVariables_clause (formed : rule.Formed) :
    emptyVariables (Rule.concatenate rule).clause.bodies = [] := by
  have none : (Rule.concatenate rule).clause.bodies.filter
      (fun atom => atom.name == Grammar.emptyWordName) = [] := by
    apply List.filter_eq_nil_iff.mpr
    intro atom member
    simpa using name_ne_of_mem_bodies formed member
  rw [emptyVariables, none]
  rfl

private theorem names_clause_iff
    (used : ∀ position < rule.bodies.length, 0 < rule.bodyArity position) {body segment : Nat}
    (isBody : body < rule.bodies.length) (isSegment : segment < rule.bodyArity body)
    {reference : SegmentRef} :
    Names (Rule.concatenate rule).clause.bodies (variableName body segment) reference ↔
      reference = ⟨body, segment⟩ := by
  constructor
  · rintro ⟨atom, found, atSegment⟩
    have position := (List.getElem?_eq_some_iff.mp found).1
    simp only [clause, List.length_map, List.length_zipIdx] at position
    rw [getElem?_bodies (List.getElem?_eq_getElem position)] at found
    cases found
    rw [bodyArguments_eq (used _ position)] at atSegment
    have inside := (List.getElem?_eq_some_iff.mp atSegment).1
    rw [length_variableArguments] at inside
    rw [getElem?_variableArguments inside, Option.some.injEq, List.singleton_inj,
      variableName_inj] at atSegment
    cases reference
    simpa using atSegment
  · rintro rfl
    refine ⟨_, getElem?_bodies (List.getElem?_eq_getElem isBody), ?_⟩
    rw [bodyArguments_eq (used _ isBody)]
    exact getElem?_variableArguments isSegment

private theorem map_name_bodies :
    (Rule.concatenate rule).clause.bodies.map (·.name) = rule.bodies := by
  rw [clause, List.map_map]
  exact List.zipIdx_map_fst 0 rule.bodies

private theorem concatenates_clause (formed : rule.Formed) (readsBack : rule.ReadsBack) :
    Concatenates (Rule.concatenate rule).clause rule := by
  have single : ∀ atom ∈ (Rule.concatenate rule).clause.bodies, ∀ argument ∈ atom.arguments,
      argument.length = 1 := by
    intro atom member argument inAtom
    obtain ⟨name, position, found, rfl⟩ := exists_of_mem_bodies member
    have inside := (List.getElem?_eq_some_iff.mp found).1
    rw [bodyArguments_eq (readsBack.used position inside)] at inAtom
    exact length_of_mem_variableArguments inAtom
  constructor
  · rfl
  · rw [properBodies_clause formed, map_name_bodies]
  · rw [properBodies_clause formed]
    intro none
    apply formed.proper.bodies_ne_nil
    rw [← map_name_bodies, none]
    rfl
  · rwa [properBodies_clause formed]
  · have head : (Rule.concatenate rule).clause.head.arguments =
        rule.wiring.map fun chain => chain.map fun reference =>
          variableName reference.body reference.segment := rfl
    rw [head, List.forall₂_map_left_iff, List.forall₂_same]
    intro chain inWiring
    refine ⟨formed.proper.chain_ne_nil chain inWiring, ?_⟩
    rw [emptyVariables_clause formed, properBodies_clause formed,
      List.filter_eq_self.mpr (by simp), List.forall₂_map_left_iff, List.forall₂_same]
    intro reference inChain
    have inFlatten : reference ∈ rule.wiring.flatten :=
      List.mem_flatten_of_mem inWiring inChain
    have names := @names_clause_iff rule readsBack.used reference.body reference.segment
      (formed.proper.body_lt reference inFlatten)
      (ConcatenationRule.segment_lt_bodyArity inFlatten)
    exact locate_eq_some single (names.mpr rfl) fun other => names.mp

private theorem length_filter_isExtended :
    ((Rule.concatenate rule).clause.head.arguments.filter isExtended).length =
      (rule.wiring.filter fun chain => decide (1 < chain.length)).length := by
  have extended : isExtended ∘ (fun chain : List SegmentRef => chain.map fun reference =>
      variableName reference.body reference.segment) =
        fun chain => decide (1 < chain.length) := by
    funext chain
    simp [isExtended]
  rw [clause, List.filter_map, List.length_map, extended]

private theorem length_arguments_of_single {body : Atom}
    (only : (Rule.concatenate rule).clause.bodies = [body]) :
    rule.bodies.length = 1 ∧
      body.arguments = bodyArguments 0 (rule.bodyArity 0) := by
  have count : rule.bodies.length = 1 := by
    rw [← map_name_bodies, only]
    rfl
  obtain ⟨name, single⟩ := List.length_eq_one_iff.mp count
  rw [clause, single] at only
  cases only
  exact ⟨count, rfl⟩

private theorem shape_concatenate (formed : rule.Formed) (readsBack : rule.ReadsBack) :
    (Rule.concatenate rule).clause.Shape (.concatenate rule) := by
  apply Shape.concatenate (concatenates_clause formed readsBack)
  intro body only same
  obtain ⟨count, arguments⟩ := length_arguments_of_single only
  have positive : 0 < rule.bodyArity 0 := readsBack.used 0 (by omega)
  rw [arguments, bodyArguments_eq positive, length_variableArguments] at same
  rw [length_filter_isExtended]
  apply readsBack.few count
  simpa [clause] using same

private theorem mem_tokens_of_only_body (formed : rule.Formed) {body : Atom}
    (only : (Rule.concatenate rule).clause.bodies = [body]) :
    ∀ argument ∈ (Rule.concatenate rule).clause.head.arguments, ∀ token ∈ argument,
      token ∈ body.tokens := by
  intro argument inHead token inArgument
  obtain ⟨count, arguments⟩ := length_arguments_of_single only
  obtain ⟨chain, inWiring, rfl⟩ := List.mem_map.mp inHead
  obtain ⟨reference, inChain, rfl⟩ := List.mem_map.mp inArgument
  have inFlatten : reference ∈ rule.wiring.flatten :=
    List.mem_flatten_of_mem inWiring inChain
  have first : reference.body = 0 := by
    have inside := formed.proper.body_lt reference inFlatten
    omega
  have inside := ConcatenationRule.segment_lt_bodyArity inFlatten
  rw [first] at inside ⊢
  rw [Atom.tokens, arguments, bodyArguments_eq (Nat.zero_lt_of_lt inside),
    flatten_variableArguments, variableName_mem_variableNames]
  exact inside

private theorem bodyArity_pos_of_concatenates (formed : rule.Formed) {other : ConcatenationRule}
    (concatenates : Concatenates (Rule.concatenate rule).clause other) :
    ∀ position < rule.bodies.length, 0 < rule.bodyArity position := by
  intro position inside
  apply Nat.pos_of_ne_zero
  intro unused
  have found := getElem?_bodies (List.getElem?_eq_getElem inside)
  rw [unused] at found
  have member : _ ∈ properBodies (Rule.concatenate rule).clause.bodies :=
    properBodies_clause formed ▸ List.mem_of_getElem? found
  have length := concatenates.single _ member [] (List.mem_singleton.mpr rfl)
  cases length

private theorem readsBack_of_shape (formed : rule.Formed) {other : Rule}
    (shape : (Rule.concatenate rule).clause.Shape other) : rule.ReadsBack := by
  cases shape with
  | basic none =>
      have some := formed.proper.bodies_ne_nil
      simp [clause, some] at none
  | append only same onlyAt isBound isTerminal =>
      have isConcatenation := (Shape.append only same onlyAt isBound
        isTerminal).isConcatenation_of_bound only (mem_tokens_of_only_body formed only)
      cases isConcatenation
  | prepend only same onlyAt isBound isTerminal =>
      have isConcatenation := (Shape.prepend only same onlyAt isBound
        isTerminal).isConcatenation_of_bound only (mem_tokens_of_only_body formed only)
      cases isConcatenation
  | insert only longer onlyAt =>
      have isConcatenation := (Shape.insert only longer onlyAt).isConcatenation_of_bound only
        (mem_tokens_of_only_body formed only)
      cases isConcatenation
  | concatenate concatenates few =>
      have used := bodyArity_pos_of_concatenates formed concatenates
      refine ⟨used, fun count same => ?_⟩
      obtain ⟨name, single⟩ := List.length_eq_one_iff.mp count
      have only : (Rule.concatenate rule).clause.bodies =
          [⟨name, variableArguments 0 (rule.bodyArity 0)⟩] := by
        rw [← bodyArguments_eq (used 0 (by omega)), clause, single]
        rfl
      rw [← length_filter_isExtended]
      apply few _ only
      simpa [clause] using same

end Concatenations

/-! ## Printed rules read -/

section Formed

variable {rule : Rule}

theorem Formed.shape (formed : rule.Formed) (readsBack : rule.ReadsBack) :
    rule.clause.Shape rule := by
  cases rule with
  | basic rule =>
      obtain ⟨_, label⟩ := formed
      have shape := @Shape.basic (Rule.basic rule).clause (labelToken rule.label) rfl rfl
      rw [label.labelOf_labelToken] at shape
      exact shape
  | prepend rule => exact shape_prepend formed readsBack
  | append rule => exact shape_append formed readsBack
  | insert rule => exact shape_insert formed readsBack
  | concatenate rule => exact shape_concatenate formed readsBack

private theorem bound_modify {arity index : Nat} {change : List String → List String}
    (name : Nonterminal)
    (changed : ∀ token ∈ change [variableName 0 index], token ∈ variableNames 0 arity) :
    ∀ argument ∈ (variableArguments 0 arity).modify index change, ∀ token ∈ argument,
      token ∈ (Atom.mk name (variableArguments 0 arity)).tokens := by
  intro argument member token inArgument
  rw [Atom.tokens, flatten_variableArguments]
  obtain ⟨segment, found⟩ := List.mem_iff_getElem?.mp member
  obtain ⟨below, rfl⟩ := getElem?_modify_variableArguments.mp found
  split at inArgument
  · rename_i here
    exact changed token (here ▸ inArgument)
  · rw [List.mem_singleton.mp inArgument, variableName_mem_variableNames]
    exact below

private theorem bound_insertIdx {arity index : Nat} {label : Label} (name : Nonterminal)
    (taken : label ∈ variableNames 0 arity) :
    ∀ argument ∈ (variableArguments 0 arity).insertIdx index [labelToken label],
      ∀ token ∈ argument, token ∈ (Atom.mk name (variableArguments 0 arity)).tokens := by
  intro argument member token inArgument
  rw [Atom.tokens, flatten_variableArguments]
  obtain ⟨segment, found⟩ := List.mem_iff_getElem?.mp member
  rcases getElem?_insertIdx_variableArguments found with ⟨_, rfl⟩ | ⟨place, below, rfl⟩
  · rw [List.mem_singleton.mp inArgument, labelToken_mem_iff]
    exact taken
  · rw [List.mem_singleton.mp inArgument, variableName_mem_variableNames]
    exact below

/-- The clause of a rule that does not read back is read, if at all, as a concatenation in
the place of a unary rule. -/
theorem Formed.isConcatenation_of_shape (formed : rule.Formed) {other : Rule}
    (shape : rule.clause.Shape other) (fails : ¬ rule.ReadsBack) :
    rule.isConcatenation = false ∧ other.isConcatenation = true := by
  cases rule with
  | basic rule => exact absurd trivial fails
  | prepend rule =>
      have taken : rule.label ∈ variableNames 0 rule.arity := Classical.not_not.mp fails
      refine ⟨rfl, shape.isConcatenation_of_bound rfl (bound_modify rule.body ?_)⟩
      intro token member
      rcases List.mem_pair.mp member with rfl | rfl
      · exact labelToken_mem_iff.mpr taken
      · exact variableName_mem_variableNames.mpr (ExtensionRule.Formed.index formed)
  | append rule =>
      have taken : rule.label ∈ variableNames 0 rule.arity := Classical.not_not.mp fails
      refine ⟨rfl, shape.isConcatenation_of_bound rfl (bound_modify rule.body ?_)⟩
      intro token member
      rcases List.mem_pair.mp member with rfl | rfl
      · exact variableName_mem_variableNames.mpr (ExtensionRule.Formed.index formed)
      · exact labelToken_mem_iff.mpr taken
  | insert rule =>
      have taken : rule.label ∈ variableNames 0 rule.bodyArity := Classical.not_not.mp fails
      exact ⟨rfl, shape.isConcatenation_of_bound rfl (bound_insertIdx rule.body taken)⟩
  | concatenate rule => exact absurd (readsBack_of_shape formed shape) fails

theorem Formed.read_text_eq_ok_iff (formed : rule.Formed) :
    Rule.read rule.text = .ok rule ↔ rule.ReadsBack := by
  rw [formed.read_text, toRule_eq_ok_iff]
  constructor
  · intro shape
    by_contra fails
    obtain ⟨isNot, isOne⟩ := formed.isConcatenation_of_shape shape fails
    rw [isNot] at isOne
    cases isOne
  · exact formed.shape

end Formed

end Rule

/-! ## Printed grammars -/

namespace Grammar

theorem ofRules_rules (grammar : Grammar) : ofRules grammar.rules = grammar := by
  simp [ofRules, rules, List.filterMap_append, List.filterMap_map]

private theorem length_concatenate_ofRules (rules : List Rule) :
    (ofRules rules).concatenate.length = rules.countP Rule.isConcatenation := by
  induction rules with
  | nil => rfl
  | cons rule rules induction =>
      simp only [ofRules] at induction ⊢
      cases rule with
      | basic rule => simpa [Rule.isConcatenation] using induction
      | prepend rule => simpa [Rule.isConcatenation] using induction
      | append rule => simpa [Rule.isConcatenation] using induction
      | insert rule => simpa [Rule.isConcatenation] using induction
      | concatenate rule =>
          rw [List.countP_cons_of_pos rfl, ← induction]
          rfl

private def heading (grammar : Grammar) : String :=
  Text.decimal grammar.dimension ++ "-dimensional MCFG of rank " ++ Text.decimal grammar.rank

private theorem not_mem_heading {grammar : Grammar} {mark : Char} (notDigit : mark.isDigit = false)
    (notWord : mark ∉ "-dimensional MCFG of rank ".toList) :
    mark ∉ grammar.heading.toList := by
  have digits : ∀ value, mark ∉ (Text.decimal value).toList := by
    intro value member
    rw [Text.isDigit_of_mem_decimal member] at notDigit
    cases notDigit
  rw [heading, String.toList_append, String.toList_append, List.mem_append, List.mem_append]
  rintro ((inDimension | inWord) | inRank)
  · exact digits _ inDimension
  · exact notWord inWord
  · exact digits _ inRank

private theorem isClauseLine_heading (grammar : Grammar) :
    Clause.isClauseLine grammar.heading.toList = false := by
  have noStop : '.' ∉ Text.trim grammar.heading.toList :=
    fun isStop => not_mem_heading (by decide) (by decide) (Text.mem_of_mem_trim isStop)
  simp [Clause.isClauseLine, noStop]

variable {grammar : Grammar}

private theorem lines_text (formed : ∀ rule ∈ grammar.rules, rule.Formed) :
    Text.lines grammar.text.toList =
      grammar.heading.toList :: grammar.rules.map (·.text.toList) := by
  have text : grammar.text.toList = ['\n'].intercalate
      (grammar.heading.toList :: grammar.rules.map (·.text.toList)) := by
    rw [Grammar.text, String.toList_intercalate, List.map_cons, List.map_map]
    rfl
  rw [text]
  apply Text.lines_intercalate
  intro line member
  rcases List.mem_cons.mp member with rfl | inRules
  · refine ⟨?_, not_mem_heading (by decide) (by decide), not_mem_heading (by decide) (by decide)⟩
    simp [heading]
  · obtain ⟨rule, inGrammar, rfl⟩ := List.mem_map.mp inRules
    have isFormed := formed rule inGrammar
    rw [Rule.text_eq isFormed.indexed]
    exact (AtomClause.isLine_text isFormed.written).2

private theorem clauseLines_text (formed : ∀ rule ∈ grammar.rules, rule.Formed) :
    ((Text.lines grammar.text.toList).zipIdx.filter fun (line, _) => Clause.isClauseLine line) =
      (grammar.rules.map (·.text.toList)).zipIdx 1 := by
  rw [lines_text formed, List.zipIdx_cons, List.filter_cons_of_neg
    (by simp [isClauseLine_heading]), List.filter_eq_self]
  rintro ⟨line, number⟩ numbered
  obtain ⟨rule, inGrammar, rfl⟩ := List.mem_map.mp (List.fst_mem_of_mem_zipIdx numbered)
  have isFormed := formed rule inGrammar
  rw [Rule.text_eq isFormed.indexed]
  exact (AtomClause.isLine_text isFormed.written).1

private theorem forall₂_zipIdx_iff {α β : Type} {related : α → β → Prop} {items : List α}
    {images : List β} {start : Nat} :
    List.Forall₂ (fun item image => related item.1 image) (items.zipIdx start) images ↔
      List.Forall₂ related items images := by
  conv_rhs => rw [← List.zipIdx_map_fst start items, List.forall₂_map_left_iff]

/-- Reads a line with its place among the lines. -/
private def readLine (numbered : List Char × Nat) : Except GrammarError Rule :=
  match Rule.read (String.ofList numbered.1) with
  | .ok rule => .ok rule
  | .error cause => .error (.clause (numbered.2 + 1) cause)

private theorem readLine_eq_ok_iff {numbered : List Char × Nat} {rule : Rule} :
    readLine numbered = .ok rule ↔ Rule.read (String.ofList numbered.1) = .ok rule := by
  unfold readLine
  cases Rule.read (String.ofList numbered.1) with
  | ok found => simp
  | error cause => simp

private theorem read_eq_ok_iff {text : String} {other : Grammar} :
    Grammar.read text = .ok other ↔ ∃ rules,
      ((Text.lines text.toList).zipIdx.filter fun (line, _) =>
        Clause.isClauseLine line).mapM readLine = .ok rules ∧ ofRules rules = other := by
  have unfolded : Grammar.read text =
      (((Text.lines text.toList).zipIdx.filter fun (line, _) =>
        Clause.isClauseLine line).mapM readLine >>= fun rules => .ok (ofRules rules)) := rfl
  rw [unfolded]
  cases ((Text.lines text.toList).zipIdx.filter fun (line, _) =>
      Clause.isClauseLine line).mapM readLine with
  | error cause => simp [bind, Except.bind]
  | ok rules => simp [bind, Except.bind]

theorem read_text_eq_ok_iff (formed : ∀ rule ∈ grammar.rules, rule.Formed) {other : Grammar} :
    Grammar.read grammar.text = .ok other ↔
      ∃ rules, List.Forall₂ (fun rule read => Rule.read rule.text = .ok read) grammar.rules rules ∧
        ofRules rules = other := by
  rw [read_eq_ok_iff, clauseLines_text formed]
  apply exists_congr
  intro rules
  apply and_congr_left'
  rw [AtomClause.mapM_eq_ok_iff]
  simp only [readLine_eq_ok_iff]
  rw [@forall₂_zipIdx_iff _ _ fun line rule => Rule.read (String.ofList line) = .ok rule,
    List.forall₂_map_left_iff]
  simp only [String.ofList_toList]

private theorem countP_of_read {rules others : List Rule}
    (formed : ∀ rule ∈ rules, rule.Formed)
    (read : List.Forall₂ (fun rule other => Rule.read rule.text = .ok other) rules others) :
    rules.countP Rule.isConcatenation ≤ others.countP Rule.isConcatenation ∧
      (others.countP Rule.isConcatenation ≤ rules.countP Rule.isConcatenation →
        ∀ rule ∈ rules, rule.ReadsBack) := by
  induction read with
  | nil => exact ⟨Nat.le_refl _, by simp⟩
  | @cons rule other rules others here _ induction =>
      have first := formed rule (by simp)
      obtain ⟨more, later⟩ := induction fun rule member => formed rule (by simp [member])
      rw [List.countP_cons, List.countP_cons, List.forall_mem_cons]
      by_cases readsBack : rule.ReadsBack
      · have same := first.read_text_eq_ok_iff.mpr readsBack
        rw [here] at same
        cases same
        exact ⟨by omega, fun counts => ⟨readsBack, later (by omega)⟩⟩
      · rw [first.read_text, AtomClause.toRule_eq_ok_iff] at here
        obtain ⟨isNot, isOne⟩ := first.isConcatenation_of_shape here readsBack
        simp only [isNot, isOne, if_true, Bool.false_eq_true, if_false]
        exact ⟨by omega, fun counts => by omega⟩

theorem read_text_iff_forall (formed : ∀ rule ∈ grammar.rules, rule.Formed) :
    Grammar.read grammar.text = .ok grammar ↔ ∀ rule ∈ grammar.rules, rule.ReadsBack := by
  rw [read_text_eq_ok_iff formed]
  constructor
  · rintro ⟨rules, read, made⟩
    apply (countP_of_read formed read).2
    rw [← length_concatenate_ofRules, ← length_concatenate_ofRules, made, ofRules_rules]
  · intro readsBack
    refine ⟨grammar.rules, List.forall₂_same.mpr fun rule member => ?_, ofRules_rules grammar⟩
    exact (formed rule member).read_text_eq_ok_iff.mpr (readsBack rule member)

end Grammar

/-! ## Accepted texts -/

theorem Rule.formed_of_read {text : String} {rule : Rule} (accepted : Rule.read text = .ok rule) :
    rule.Formed := by
  unfold Rule.read at accepted
  simp only at accepted
  split at accepted
  · cases accepted
  · rename_i clause clauseRead
    exact (AtomClause.toRule_eq_ok_iff.mp accepted).formed
      (AtomClause.written_of_read clauseRead)

theorem Grammar.formed_of_read {text : String} {grammar : Grammar}
    (accepted : Grammar.read text = .ok grammar) : ∀ rule ∈ grammar.rules, rule.Formed := by
  intro rule member
  obtain ⟨clause, inText, ruled⟩ := Grammar.exists_clause accepted member
  obtain ⟨line, _, clauseRead⟩ := List.mem_filterMap.mp inText
  exact (AtomClause.toRule_eq_ok_iff.mp ruled).formed (AtomClause.written_of_read clauseRead)

/-- What was read from a text is read back from its printed text exactly if its rules read
back: no label of a unary rule is a printed variable, every body is used, and rearrangements
of one body do not look like several extensions. -/
theorem read_text_iff_readsBack (text : String) :
    (∀ rule, Rule.read text = .ok rule →
      (Rule.read rule.text = .ok rule ↔ rule.ReadsBack)) ∧
    ∀ grammar, Grammar.read text = .ok grammar →
      (Grammar.read grammar.text = .ok grammar ↔ ∀ rule ∈ grammar.rules, rule.ReadsBack) :=
  ⟨fun _ accepted => (Rule.formed_of_read accepted).read_text_eq_ok_iff,
    fun _ accepted => Grammar.read_text_iff_forall (Grammar.formed_of_read accepted)⟩

def wrappingText : String :=
  "S(X0 Y0 X1) :- P(X0, X1), S(Y0)."

def wrappingRule : ConcatenationRule :=
  ⟨"S", ["P", "S"], [[⟨0, 0⟩, ⟨1, 0⟩, ⟨0, 1⟩]]⟩

theorem read_text_iff_readsBack_nestedPairs :
    Rule.read wrappingText = .ok (.concatenate wrappingRule) ∧
      Rule.read wrappingRule.text = .ok (.concatenate wrappingRule) ∧
      Grammar.read nestedText = .ok nestedPairs ∧
      Grammar.read nestedPairs.text = .ok nestedPairs := by
  have rule : Rule.read wrappingText = .ok (.concatenate wrappingRule) := by decide +kernel
  have grammar : Grammar.read nestedText = .ok nestedPairs := by decide +kernel
  have ruleBack := ((read_text_iff_readsBack wrappingText).1 _ rule).mpr (by decide)
  have grammarBack := ((read_text_iff_readsBack nestedText).2 _ grammar).mpr (by decide)
  exact ⟨rule, ruleBack, grammar, grammarBack⟩

/-- No segment of the second body is used. -/
def unusedBodyText : String :=
  "S(X0) :- A(X0), B(Y0)."

def unusedBodyRule : Rule :=
  .concatenate ⟨"S", ["A", "B"], [[⟨0, 0⟩]]⟩

/-- The label is called like a printed variable. -/
def variableLabelText : String :=
  "S(X0 Y) :- B(Y)."

/-- Two chains of one body have two segments. -/
def doubledText : String :=
  "S(X0 X0, X1 X1) :- B(X0, X1, X2)."

/-- Three accepted clauses whose printed texts are read as something else or not at all. -/
theorem not_readsBack_unusedBody :
    Rule.read unusedBodyText = .ok unusedBodyRule ∧
      unusedBodyRule.text = "S(X0) :- A(X0), B()." ∧
      Rule.read unusedBodyRule.text = .error (.compoundBodyArgument "S") ∧
      Rule.read variableLabelText = .ok (.prepend ⟨"S", "B", "X0", 0, 1⟩) ∧
      Rule.read (Rule.prepend ⟨"S", "B", "X0", 0, 1⟩).text =
        .ok (.concatenate ⟨"S", ["B"], [[⟨0, 0⟩, ⟨0, 0⟩]]⟩) ∧
      Rule.read doubledText =
        .ok (.concatenate ⟨"S", ["B"], [[⟨0, 0⟩, ⟨0, 0⟩], [⟨0, 1⟩, ⟨0, 1⟩]]⟩) ∧
      Rule.read (ConcatenationRule.text ⟨"S", ["B"], [[⟨0, 0⟩, ⟨0, 0⟩], [⟨0, 1⟩, ⟨0, 1⟩]]⟩) =
        .error (.severalExtended "S") := by
  decide +kernel

end GrammarReach
