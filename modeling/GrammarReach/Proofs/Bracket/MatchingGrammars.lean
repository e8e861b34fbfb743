import GrammarReach.Proofs.Bracket.WordDerivations

/-!
# Grammars that match brackets

The balanced grammar derives exactly walks whose words match one family, and the
interleaved grammar only walks whose words match both.  Both speak about the
brackets that they were given ids of.
-/

namespace GrammarReach

namespace BracketIds

/-- The label is `normal` or a bracket with one of the ids. -/
def Covers (ids : BracketIds) (label : Label) : Prop :=
  label = normalLabel ∨ ∃ family, ∃ id ∈ ids.ofFamily family,
    label = family.openLabel id ∨ label = family.closeLabel id

/-- All ids are small enough to be read back. -/
def Bounded (ids : BracketIds) : Prop :=
  ∀ family, ∀ id ∈ ids.ofFamily family, id < Text.halfWordBound

theorem Covers.canonical {ids : BracketIds} (bounded : ids.Bounded) {label : Label}
    (covers : ids.Covers label) : CanonicalLabel label := by
  rcases covers with rfl | ⟨family, id, member, rfl | rfl⟩
  · exact .normal
  · exact .opening family (bounded family id member)
  · exact .closing family (bounded family id member)

/-- A covered label that a family does not own is `normal` or a bracket of the
other family. -/
theorem Covers.foreign {ids : BracketIds} (bounded : ids.Bounded) {label : Label}
    (covers : ids.Covers label) {family : BracketFamily}
    (foreign : family.owns label = false) :
    label = normalLabel ∨ ∃ id ∈ ids.ofFamily family.other,
      label = family.other.openLabel id ∨ label = family.other.closeLabel id := by
  rcases covers with rfl | ⟨owner, id, member, role⟩
  · exact Or.inl rfl
  · rcases family.eq_or_eq_other owner with rfl | rfl
    · have below := bounded owner id member
      rcases role with rfl | rfl
      · simp [BracketFamily.owns_openLabel, below] at foreign
      · simp [BracketFamily.owns_closeLabel, below] at foreign
    · exact Or.inr ⟨id, member, role⟩

/-- A covered label is read as `normal` or as a bracket with one of the ids. -/
theorem Covers.read {ids : BracketIds} (bounded : ids.Bounded) {label : Label}
    (covers : ids.Covers label) :
    BracketLabel.read label = .normal ∨ ∃ family, ∃ id ∈ ids.ofFamily family,
      BracketLabel.read label = .opening family id ∨
        BracketLabel.read label = .closing family id := by
  rcases covers with rfl | ⟨family, id, member, rfl | rfl⟩
  · exact .inl BracketLabel.read_normalLabel
  · exact .inr ⟨family, id, member, .inl (BracketLabel.read_openLabel _ (bounded _ _ member))⟩
  · exact .inr ⟨family, id, member, .inr (BracketLabel.read_closeLabel _ (bounded _ _ member))⟩

/-- The id of a covered opening bracket is one of the ids. -/
theorem Covers.mem_of_open {ids : BracketIds} (bounded : ids.Bounded)
    {family : BracketFamily} {id : Nat}
    (covers : ids.Covers (family.openLabel id)) : id ∈ ids.ofFamily family := by
  have reading := covers.read bounded
  rw [BracketLabel.read_openLabel_eq] at reading
  split at reading
  · simpa using reading
  · simp at reading

/-- The id of a covered closing bracket is one of the ids. -/
theorem Covers.mem_of_close {ids : BracketIds} (bounded : ids.Bounded)
    {family : BracketFamily} {id : Nat}
    (covers : ids.Covers (family.closeLabel id)) : id ∈ ids.ofFamily family := by
  have reading := covers.read bounded
  rw [BracketLabel.read_closeLabel_eq] at reading
  split at reading
  · simpa using reading
  · simp at reading

end BracketIds

namespace BracketLanguage

/-! ## Matched words over given ids -/

/-- The word matches each of the given families and consists of covered labels and
epsilon. -/
structure MatchedOver (ids : BracketIds) (families : BracketFamily → Prop)
    (word : List Label) : Prop where
  matched : ∀ family, families family → family.Matched word
  covered : ∀ label ∈ word, ids.Covers label ∨ label = Grammar.epsilon

section MatchedOver

variable {ids : BracketIds} {families : BracketFamily → Prop}

theorem MatchedOver.letter {label : Label}
    (covers : ids.Covers label ∨ label = Grammar.epsilon)
    (foreign : ∀ family, families family → family.owns label = false) :
    MatchedOver ids families [label] := by
  refine ⟨fun family member => .pass (foreign family member) .nil, ?_⟩
  intro other member
  rw [List.mem_singleton] at member
  exact member ▸ covers

theorem MatchedOver.append {left right : List Label}
    (before : MatchedOver ids families left) (behind : MatchedOver ids families right) :
    MatchedOver ids families (left ++ right) := by
  refine ⟨fun family member =>
    (before.matched family member).append (behind.matched family member), ?_⟩
  intro label member
  exact (List.mem_append.mp member).elim (before.covered label) (behind.covered label)

theorem MatchedOver.wrap (bounded : ids.Bounded) {word : List Label}
    (inner : MatchedOver ids families word) {owner : BracketFamily} {id : Nat}
    (known : id ∈ ids.ofFamily owner) :
    MatchedOver ids families (owner.openLabel id :: (word ++ [owner.closeLabel id])) := by
  have below := bounded owner id known
  constructor
  · intro family member
    rcases owner.eq_or_eq_other family with rfl | rfl
    · exact (inner.matched _ member).enclose below
    · have opens : owner.other.owns (owner.openLabel id) = false := by
        simp [BracketFamily.owns_openLabel, (owner.other_ne).symm]
      have closes : owner.other.owns (owner.closeLabel id) = false := by
        simp [BracketFamily.owns_closeLabel, (owner.other_ne).symm]
      exact .pass opens ((inner.matched _ member).append (.pass closes .nil))
  · intro label member
    rcases List.mem_cons.mp member with rfl | later
    · exact Or.inl (Or.inr ⟨owner, id, known, Or.inl rfl⟩)
    · rcases List.mem_append.mp later with inside | last
      · exact inner.covered label inside
      · rw [List.mem_singleton] at last
        exact Or.inl (Or.inr ⟨owner, id, known, Or.inr last⟩)

end MatchedOver

/-- A bracket grammar without extensions that matches known brackets only, and
whose letters no matched family owns. -/
structure MatchingGrammar (grammar : Grammar) (ids : BracketIds)
    (families : BracketFamily → Prop) : Prop where
  shape : WordGrammar grammar fun family id => id ∈ ids.ofFamily family
  letter : ∀ rule ∈ grammar.basic, IsWordName rule.head →
    (ids.Covers rule.label ∨ rule.label = Grammar.epsilon) ∧
      ∀ family, families family → family.owns rule.label = false
  noPrepend : grammar.prepend = []
  noAppend : grammar.append = []

theorem MatchingGrammar.respects {grammar : Grammar} {ids : BracketIds}
    {families : BracketFamily → Prop} (bounded : ids.Bounded)
    (matching : MatchingGrammar grammar ids families) :
    Respects grammar (fun family id => id ∈ ids.ofFamily family)
      fun _ => MatchedOver ids families where
  letter rule member word := by
    obtain ⟨covers, foreign⟩ := matching.letter rule member word
    exact .letter covers foreign
  sequence _ _ _ before behind := before.append behind
  wrap _ _ _ known inner := inner.wrap bounded known
  rename _ _ word := word
  prepend rule member := by simp [matching.noPrepend] at member
  append rule member := by simp [matching.noAppend] at member

/-- Behind every answer of a matching grammar is a walk with a matched word over the used
edges. -/
theorem MatchingGrammar.walk_of_derives {grammar : Grammar} {ids : BracketIds}
    {families : BracketFamily → Prop} (bounded : ids.Bounded)
    (matching : MatchingGrammar grammar ids families) {graph : Graph} {span : Span}
    {used : List Edge} (derives : grammar.Derives graph Grammar.startName [span] used) :
    ∃ path, Joins span.start path span.stop ∧ (∀ edge ∈ path, edge ∈ graph.edges) ∧
      (∀ edge ∈ used, edge ∈ path) ∧ MatchedOver ids families (wordOf path) :=
  wordWalk_of_derives matching.shape (matching.respects bounded) (by decide) derives

/-! ## Unions -/

section Unions

variable {grammars : List Grammar}

theorem mem_basic_unions {rule : BasicRule} :
    rule ∈ (unions grammars).basic ↔ ∃ grammar ∈ grammars, rule ∈ grammar.basic :=
  List.mem_flatMap

theorem mem_insert_unions {rule : InsertionRule} :
    rule ∈ (unions grammars).insert ↔ ∃ grammar ∈ grammars, rule ∈ grammar.insert :=
  List.mem_flatMap

theorem mem_concatenate_unions {rule : ConcatenationRule} :
    rule ∈ (unions grammars).concatenate ↔
      ∃ grammar ∈ grammars, rule ∈ grammar.concatenate :=
  List.mem_flatMap

variable {ids : BracketIds} {families : BracketFamily → Prop}

/-- Matching grammars taken together match. -/
theorem MatchingGrammar.unions
    (each : ∀ grammar ∈ grammars, MatchingGrammar grammar ids families) :
    MatchingGrammar (BracketLanguage.unions grammars) ids families := by
  have noPrepend : (BracketLanguage.unions grammars).prepend = [] :=
    List.flatMap_eq_nil_iff.mpr fun grammar member => (each grammar member).noPrepend
  have noAppend : (BracketLanguage.unions grammars).append = [] :=
    List.flatMap_eq_nil_iff.mpr fun grammar member => (each grammar member).noAppend
  refine ⟨⟨?_, ?_, by simp [noPrepend], by simp [noAppend], ?_⟩, ?_, noPrepend, noAppend⟩
  · intro rule member
    obtain ⟨grammar, among, inside⟩ := mem_basic_unions.mp member
    exact (each grammar among).shape.basic rule inside
  · intro rule member
    obtain ⟨grammar, among, inside⟩ := mem_insert_unions.mp member
    exact (each grammar among).shape.insert rule inside
  · intro rule member
    obtain ⟨grammar, among, inside⟩ := mem_concatenate_unions.mp member
    exact (each grammar among).shape.concatenate rule inside
  · intro rule member
    obtain ⟨grammar, among, inside⟩ := mem_basic_unions.mp member
    exact (each grammar among).letter rule inside

theorem MatchingGrammar.append {left right : Grammar}
    (first : MatchingGrammar left ids families)
    (second : MatchingGrammar right ids families) :
    MatchingGrammar (left ++ right) ids families := by
  have asUnions : left ++ right = BracketLanguage.unions [left, right] := by
    change left.union right = _
    simp only [Grammar.union, BracketLanguage.unions, List.flatMap_cons, List.flatMap_nil,
      List.append_nil]
  rw [asUnions]
  exact .unions (by simp [first, second])

end Unions

/-! ## The building blocks match -/

section Blocks

variable {ids : BracketIds} {families : BracketFamily → Prop}
  {name left right inner source : Nonterminal}

theorem matching_empty : MatchingGrammar .empty ids families := by
  refine ⟨⟨?_, ?_, ?_, ?_, ?_⟩, ?_, rfl, rfl⟩ <;> simp [Grammar.empty]

theorem ifAny_of_mem {known : List Nat} {id : Nat} (member : id ∈ known)
    (grammar : Grammar) : ifAny known grammar = grammar := by
  cases known with
  | nil => simp at member
  | cons first rest => rfl

theorem matching_ifAny {known : List Nat} {grammar : Grammar}
    (matching : MatchingGrammar grammar ids families) :
    MatchingGrammar (ifAny known grammar) ids families := by
  unfold ifAny
  split
  · exact matching_empty
  · exact matching

private theorem matching_of_concatenate {rule : ConcatenationRule} (word : WordRule rule) :
    MatchingGrammar { concatenate := [rule] } ids families := by
  refine ⟨⟨?_, ?_, ?_, ?_, ?_⟩, ?_, rfl, rfl⟩ <;> simp [word]

theorem matching_sequence (head : IsWordName name) (first : IsWordName left)
    (second : IsWordName right) :
    MatchingGrammar (sequence name left right) ids families :=
  matching_of_concatenate (.sequence head first second)

theorem matching_wrap (family : BracketFamily) (head : IsWordName name)
    (body : IsWordName inner) : MatchingGrammar (wrap name inner family) ids families :=
  matching_of_concatenate (.wrap family head body)

theorem matching_rename (head : IsWordName name) (body : IsWordName source) :
    MatchingGrammar (rename name source) ids families :=
  matching_of_concatenate (.rename head body)

private theorem matching_of_letters {rules : List BasicRule}
    (words : ∀ rule ∈ rules, IsWordName rule.head)
    (covers : ∀ rule ∈ rules, ids.Covers rule.label ∨ rule.label = Grammar.epsilon)
    (foreign : ∀ rule ∈ rules, ∀ family, families family →
      family.owns rule.label = false) :
    MatchingGrammar { basic := rules } ids families := by
  refine ⟨⟨fun rule member => Or.inl (words rule member), ?_, ?_, ?_, ?_⟩,
    fun rule member _ => ⟨covers rule member, foreign rule member⟩, rfl, rfl⟩ <;> simp

theorem matching_letter {label : Label} (head : IsWordName name)
    (covers : ids.Covers label ∨ label = Grammar.epsilon)
    (foreign : ∀ family, families family → family.owns label = false) :
    MatchingGrammar (letter name label) ids families :=
  matching_of_letters (by simpa using head) (by simpa using covers) (by simpa using foreign)

theorem matching_neutralLetters (head : IsWordName name) :
    MatchingGrammar (neutralLetters name) ids families :=
  .append (matching_letter head (Or.inr rfl) fun _ _ => BracketFamily.owns_epsilon _)
    (matching_letter head (Or.inl (Or.inl rfl)) fun _ _ => BracketFamily.owns_normalLabel _)

theorem matching_letters {owner : BracketFamily} {known : List Nat}
    (head : IsWordName name) (sub : ∀ id ∈ known, id ∈ ids.ofFamily owner)
    (free : ¬ families owner) : MatchingGrammar (letters name owner known) ids families := by
  apply matching_of_letters
  · intro rule member
    obtain ⟨id, _, role⟩ := List.mem_flatMap.mp member
    simp only [List.mem_cons, List.not_mem_nil, or_false] at role
    rcases role with rfl | rfl
    · exact head
    · exact head
  · intro rule member
    obtain ⟨id, isKnown, role⟩ := List.mem_flatMap.mp member
    simp only [List.mem_cons, List.not_mem_nil, or_false] at role
    refine Or.inl (Or.inr ⟨owner, id, sub id isKnown, ?_⟩)
    rcases role with rfl | rfl
    · exact Or.inl rfl
    · exact Or.inr rfl
  · intro rule member family matched
    have different : owner ≠ family := fun same => free (same ▸ matched)
    obtain ⟨id, _, role⟩ := List.mem_flatMap.mp member
    simp only [List.mem_cons, List.not_mem_nil, or_false] at role
    rcases role with rfl | rfl
    · simp [BracketFamily.owns_openLabel, different]
    · simp [BracketFamily.owns_closeLabel, different]

theorem mem_basic_matchedPairs {owner : BracketFamily} {known : List Nat} {id : Nat}
    (member : id ∈ known) : openerRule owner id ∈ (matchedPairs owner known).basic :=
  List.mem_map.mpr ⟨id, member, rfl⟩

theorem mem_insert_matchedPairs {owner : BracketFamily} {known : List Nat} {id : Nat}
    (member : id ∈ known) : pairRule owner id ∈ (matchedPairs owner known).insert :=
  List.mem_map.mpr ⟨id, member, rfl⟩

theorem matching_matchedPairs {owner : BracketFamily} {known : List Nat}
    (sub : ∀ id ∈ known, id ∈ ids.ofFamily owner) :
    MatchingGrammar (matchedPairs owner known) ids families := by
  have openers : ∀ rule ∈ (matchedPairs owner known).basic,
      ∃ id, rule = openerRule owner id := by
    intro rule member
    obtain ⟨id, _, rfl⟩ := List.mem_map.mp member
    exact ⟨id, rfl⟩
  refine ⟨⟨?_, ?_, by simp [matchedPairs], by simp [matchedPairs], by simp [matchedPairs]⟩,
    ?_, rfl, rfl⟩
  · intro rule member
    exact Or.inr ⟨owner, openers rule member⟩
  · intro rule member
    obtain ⟨id, isKnown, rfl⟩ := List.mem_map.mp member
    exact ⟨owner, id, sub id isKnown, rfl⟩
  · intro rule member head
    obtain ⟨id, rfl⟩ := openers rule member
    exact absurd head (not_isWordName_openerName owner id)

end Blocks

/-! ## The balanced and the interleaved grammar -/

section Balanced

theorem matching_balanced_of_known {ids : BracketIds} {families : BracketFamily → Prop}
    {family passing : BracketFamily} {own passingIds : List Nat}
    (ownKnown : ∀ id ∈ own, id ∈ ids.ofFamily family)
    (passingKnown : ∀ id ∈ passingIds, id ∈ ids.ofFamily passing) (free : ¬ families passing) :
    MatchingGrammar (balanced family own passing passingIds) ids families := by
  have word := isWordName_startName
  apply MatchingGrammar.unions
  simp only [List.forall_mem_cons, List.not_mem_nil, false_implies, implies_true, and_true]
  refine ⟨?_, ?_, ?_, ?_, ?_⟩
  · exact matching_matchedPairs ownKnown
  · exact matching_letters word passingKnown free
  · exact matching_neutralLetters word
  · exact matching_sequence word word word
  · exact matching_ifAny (matching_wrap family word word)

variable (family : BracketFamily) (ids : BracketIds)

/-- The balanced grammar of a family with all given ids. -/
abbrev balancedOver : Grammar :=
  balanced family (ids.ofFamily family) family.other (ids.ofFamily family.other)

theorem matching_balanced :
    MatchingGrammar (balancedOver family ids) ids (· = family) :=
  matching_balanced_of_known (fun _ member => member) (fun _ member => member) family.other_ne

/-- The balanced grammar derives all matched words over its ids. -/
theorem derivesMatched_balanced (bounded : ids.Bounded) :
    DerivesMatched (balancedOver family ids) family ids.Covers
      fun _ => Grammar.startName where
  empty := by
    refine mem_basic_unions.mpr ⟨_, .tail _ (.tail _ (.head _)), ?_⟩
    exact .head _
  letter label covers foreign := by
    rcases covers.foreign bounded foreign with rfl | ⟨id, member, role⟩
    · refine mem_basic_unions.mpr ⟨_, .tail _ (.tail _ (.head _)), ?_⟩
      exact .tail _ (.head _)
    · refine mem_basic_unions.mpr ⟨_, .tail _ (.head _), ?_⟩
      refine List.mem_flatMap.mpr ⟨id, member, ?_⟩
      rcases role with rfl | rfl <;> simp
  sequence _ _ _ := by
    refine mem_concatenate_unions.mpr ⟨_, .tail _ (.tail _ (.tail _ (.head _))), ?_⟩
    exact .head _
  wrap id inner covers _ := by
    refine mem_concatenate_unions.mpr
      ⟨_, .tail _ (.tail _ (.tail _ (.tail _ (.head _)))), ?_⟩
    rw [ifAny_of_mem (covers.mem_of_open bounded)]
    exact .head _
  opener id covers :=
    mem_basic_unions.mpr ⟨_, .head _, mem_basic_matchedPairs (covers.mem_of_open bounded)⟩
  pair id covers :=
    mem_insert_unions.mpr ⟨_, .head _, mem_insert_matchedPairs (covers.mem_of_open bounded)⟩

theorem matching_interleaved : MatchingGrammar (interleaved ids) ids fun _ => True := by
  have word := isWordName_startName
  apply MatchingGrammar.unions
  simp only [List.forall_mem_cons, List.not_mem_nil, false_implies, implies_true, and_true]
  refine ⟨?_, ?_, ?_, ?_, ?_, ?_⟩
  · exact matching_matchedPairs fun _ member => member
  · exact matching_matchedPairs fun _ member => member
  · exact matching_neutralLetters word
  · exact matching_sequence word word word
  · exact matching_ifAny (matching_wrap .parenthesis word word)
  · exact matching_ifAny (matching_wrap .bracket word word)

end Balanced

end BracketLanguage

end GrammarReach
