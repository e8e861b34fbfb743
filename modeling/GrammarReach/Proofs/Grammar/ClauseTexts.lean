import GrammarReach.Grammar.Clause
import GrammarReach.Proofs.Text.Pieces
import Mathlib.Data.List.TakeWhile

/-!
# Clauses written and read

A clause is written with a comma and a space between arguments and between bodies, and a
space between tokens.  When its names and tokens have the characters that names and tokens
may have, reading gives the clause back; and every clause that was read has such names and
tokens.
-/

namespace GrammarReach

namespace Atom

/-! ## Characters -/

/-- The character may stand in a token: it is neither a blank nor a mark of clauses. -/
def isTokenCharacter (character : Char) : Bool :=
  !Text.isBlank character &&
    !(character == ',' || character == '(' || character == ')' || character == '.')

private def blankCodes : List Nat :=
  (List.range 5).map (9 + ·) ++ [0x20, 0x85, 0xA0, 0x1680] ++
    (List.range 11).map (0x2000 + ·) ++ [0x2028, 0x2029, 0x202F, 0x205F, 0x3000]

private theorem toNat_mem_blankCodes {character : Char}
    (blank : Text.isBlank character = true) : character.toNat ∈ blankCodes := by
  simp only [Text.isBlank, Bool.or_eq_true, Bool.and_eq_true, decide_eq_true_eq,
    beq_iff_eq] at blank
  simp only [blankCodes, List.mem_append, List.mem_map, List.mem_range, List.mem_cons,
    List.not_mem_nil, or_false]
  rcases blank with (((((((((low | code) | code) | code) | code) | high) | code) | code) |
    code) | code) | code
  · exact .inl (.inl (.inl ⟨character.toNat - 9, by omega, by omega⟩))
  · simp [code]
  · simp [code]
  · simp [code]
  · simp [code]
  · exact .inl (.inr ⟨character.toNat - 0x2000, by omega, by omega⟩)
  · simp [code]
  · simp [code]
  · simp [code]
  · simp [code]
  · simp [code]

private theorem isNameCharacter_of_isBlank {character : Char}
    (blank : Text.isBlank character = true) : isNameCharacter character = false := by
  have outside : ∀ code ∈ blankCodes,
      ((Text.alphanumericTurns.takeWhile (· ≤ code)).length % 2 == 1) = false ∧
        code ≠ '_'.toNat := by
    decide +kernel
  have code := outside _ (toNat_mem_blankCodes blank)
  have notLine : character ≠ '_' := fun same => code.2 (by rw [same])
  simp [isNameCharacter, Text.isAlphanumeric, code.1, notLine]

theorem isTokenCharacter_of_isNameCharacter {character : Char}
    (isName : isNameCharacter character = true) : isTokenCharacter character = true := by
  have mark : ∀ mark, isNameCharacter mark = false → character ≠ mark := by
    rintro mark isMark rfl
    rw [isName] at isMark
    cases isMark
  have notBlank : Text.isBlank character = false := by
    by_contra blank
    rw [isNameCharacter_of_isBlank (by simpa using blank)] at isName
    cases isName
  have comma := mark ',' (by decide)
  have opening := mark '(' (by decide)
  have closing := mark ')' (by decide)
  have stop := mark '.' (by decide)
  simp [isTokenCharacter, notBlank, comma, opening, closing, stop]

theorem isBlank_of_isLayout {character : Char} (layout : isLayout character = true) :
    Text.isBlank character = true := by
  simp only [isLayout, Bool.or_eq_true, beq_iff_eq] at layout
  rcases layout with ((rfl | rfl) | rfl) | rfl
  · decide
  · decide
  · decide
  · decide

/-! ## Written atoms -/

/-- A non-empty word of the characters of names. -/
def IsName (name : Nonterminal) : Prop :=
  name.toList ≠ [] ∧ ∀ character ∈ name.toList, isNameCharacter character = true

/-- A non-empty word of the characters of tokens. -/
def IsToken (token : String) : Prop :=
  token.toList ≠ [] ∧ ∀ character ∈ token.toList, isTokenCharacter character = true

-- The characters are those of the text: without naming the instance, all characters there are
-- would be tried.
instance (name : Nonterminal) : Decidable (IsName name) :=
  @instDecidableAnd _ _ inferInstance (List.decidableBAll _ _)

instance (token : String) : Decidable (IsToken token) :=
  @instDecidableAnd _ _ inferInstance (List.decidableBAll _ _)

theorem IsName.isToken {name : Nonterminal} (isName : IsName name) : IsToken name :=
  ⟨isName.1, fun character member =>
    isTokenCharacter_of_isNameCharacter (isName.2 character member)⟩

/-- The atom has arguments, and its name and tokens are words that can be read. -/
structure Written (atom : Atom) : Prop where
  name : IsName atom.name
  arguments : atom.arguments ≠ []
  tokens : ∀ token ∈ atom.tokens, IsToken token

/-- The written form of an atom. -/
def text (atom : Atom) : String :=
  Clause.atomText atom.name (atom.arguments.map " ".intercalate)

private def argumentText (tokens : List String) : List Char :=
  [' '].intercalate (tokens.map String.toList)

private def insideText (arguments : List (List String)) : List Char :=
  [',', ' '].intercalate (arguments.map argumentText)

private theorem toList_text (atom : Atom) :
    atom.text.toList =
      atom.name.toList ++ '(' :: (insideText atom.arguments ++ [')']) := by
  have arguments : atom.arguments.map (String.toList ∘ " ".intercalate) =
      atom.arguments.map argumentText :=
    List.map_congr_left fun tokens _ => String.toList_intercalate
  simp [text, Clause.atomText, insideText, String.toList_intercalate, arguments]

private theorem mem_intercalate {mark : List Char} {words : List (List Char)} {character : Char}
    (member : character ∈ mark.intercalate words) :
    character ∈ mark ∨ ∃ word ∈ words, character ∈ word := by
  induction words with
  | nil => simp [List.intercalate] at member
  | cons word words induction =>
      cases words with
      | nil =>
          rw [List.intercalate_singleton] at member
          exact .inr ⟨word, by simp, member⟩
      | cons next words =>
          rw [List.intercalate_cons_cons, List.append_assoc, List.mem_append,
            List.mem_append] at member
          rcases member with inWord | inMark | later
          · exact .inr ⟨word, by simp, inWord⟩
          · exact .inl inMark
          · rcases induction later with inMark | ⟨other, inWords, inside⟩
            · exact .inl inMark
            · exact .inr ⟨other, List.mem_cons_of_mem _ inWords, inside⟩

private theorem mem_argumentText {tokens : List String}
    (valid : ∀ token ∈ tokens, IsToken token) {character : Char}
    (member : character ∈ argumentText tokens) :
    character = ' ' ∨ isTokenCharacter character = true := by
  rcases mem_intercalate member with isSpace | ⟨word, inWords, inside⟩
  · exact .inl (List.mem_singleton.mp isSpace)
  · obtain ⟨token, inTokens, rfl⟩ := List.mem_map.mp inWords
    exact .inr ((valid token inTokens).2 character inside)

private theorem ne_mark {character mark : Char}
    (inArgument : character = ' ' ∨ isTokenCharacter character = true)
    (isMark : isTokenCharacter mark = false) (notSpace : mark ≠ ' ') : character ≠ mark := by
  rintro rfl
  rcases inArgument with rfl | isToken
  · exact notSpace rfl
  · rw [isMark] at isToken
    cases isToken

private theorem tokensOf_argumentText {tokens : List String}
    (valid : ∀ token ∈ tokens, IsToken token) : tokensOf (argumentText tokens) = tokens := by
  have words : Text.fields (fun character => Text.isBlank character || character == ',')
      (argumentText tokens) = tokens.map String.toList := by
    apply Text.fields_intercalate (by decide)
    intro word member
    obtain ⟨token, inTokens, rfl⟩ := List.mem_map.mp member
    refine ⟨(valid token inTokens).1, fun character inside => ?_⟩
    have isToken := (valid token inTokens).2 character inside
    simp only [isTokenCharacter, Bool.and_eq_true, Bool.not_eq_true', Bool.or_eq_false_iff]
      at isToken
    simp [isToken.1, isToken.2.1.1]
  simp [tokensOf, words]

/-! ## Arguments -/

private theorem argumentTexts_cons_of_ne {character : Char} (different : character ≠ ',')
    (rest : List Char) :
    argumentTexts (character :: rest) = Text.extendFirst character (argumentTexts rest) := by
  rw [argumentTexts, if_neg fun both => different both.1]

private theorem argumentTexts_of_no_comma {text : List Char}
    (none : ∀ character ∈ text, character ≠ ',') : argumentTexts text = [text] := by
  induction text with
  | nil => rfl
  | cons character text induction =>
      rw [argumentTexts_cons_of_ne (none character (by simp)),
        induction fun other member => none other (by simp [member])]
      rfl

private theorem argumentTexts_append {text rest : List Char}
    (none : ∀ character ∈ text, character ≠ ',') :
    argumentTexts (text ++ ',' :: ' ' :: rest) =
      text :: Text.extendFirst ' ' (argumentTexts rest) := by
  induction text with
  | nil =>
      rw [List.nil_append, argumentTexts, if_pos ⟨rfl, rfl⟩,
        argumentTexts_cons_of_ne (by decide)]
  | cons character text induction =>
      rw [List.cons_append, argumentTexts_cons_of_ne (none character (by simp)),
        induction fun other member => none other (by simp [member])]
      rfl

private theorem map_tokensOf_extendFirst {texts : List (List Char)} (some : texts ≠ []) :
    (Text.extendFirst ' ' texts).map tokensOf = texts.map tokensOf := by
  cases texts with
  | nil => exact absurd rfl some
  | cons first others =>
      have same : tokensOf (' ' :: first) = tokensOf first := by
        rw [tokensOf, Text.fields_cons_separator (by decide), tokensOf]
      simp [Text.extendFirst, same]

private theorem argumentTexts_ne_nil (text : List Char) : argumentTexts text ≠ [] := by
  cases text with
  | nil => simp [argumentTexts]
  | cons character text =>
      rw [argumentTexts]
      split
      · simp
      · cases argumentTexts text with
        | nil => simp [Text.extendFirst]
        | cons first others => simp [Text.extendFirst]

private theorem map_tokensOf_insideText {arguments : List (List String)}
    (some : arguments ≠ []) (valid : ∀ tokens ∈ arguments, ∀ token ∈ tokens, IsToken token) :
    (argumentTexts (insideText arguments)).map tokensOf = arguments := by
  induction arguments with
  | nil => exact absurd rfl some
  | cons tokens arguments induction =>
      have noComma : ∀ character ∈ argumentText tokens, character ≠ ',' :=
        fun character member => ne_mark (mem_argumentText (valid tokens (by simp)) member)
          (by decide) (by decide)
      have first := tokensOf_argumentText (valid tokens (by simp))
      cases arguments with
      | nil =>
          rw [insideText, List.map_singleton, List.intercalate_singleton,
            argumentTexts_of_no_comma noComma, List.map_singleton, first]
      | cons next arguments =>
          have later := induction (by simp) fun other member => valid other (by simp [member])
          have split : insideText (tokens :: next :: arguments) =
              argumentText tokens ++ ',' :: ' ' :: insideText (next :: arguments) := by
            simp [insideText, List.intercalate_cons_cons]
          rw [split, argumentTexts_append noComma, List.map_cons, first,
            map_tokensOf_extendFirst (argumentTexts_ne_nil _), later]

/-! ## Reading atoms -/

private theorem takeWhile_append_mark {isInner : Char → Bool} {word rest : List Char}
    {mark : Char} (inner : ∀ character ∈ word, isInner character = true)
    (outer : isInner mark = false) : (word ++ mark :: rest).takeWhile isInner = word := by
  rw [List.takeWhile_append_of_pos inner, List.takeWhile_cons_of_neg (by simp [outer]),
    List.append_nil]

private theorem dropWhile_append_mark {isInner : Char → Bool} {word rest : List Char}
    {mark : Char} (inner : ∀ character ∈ word, isInner character = true)
    (outer : isInner mark = false) :
    (word ++ mark :: rest).dropWhile isInner = mark :: rest := by
  rw [List.dropWhile_append_of_pos inner, List.dropWhile_cons_of_neg (by simp [outer])]

private theorem skipLayout_cons {character : Char} {rest : List Char}
    (visible : isLayout character = false) :
    skipLayout (character :: rest) = character :: rest := by
  rw [skipLayout, List.dropWhile_cons_of_neg (by simp [visible])]

theorem isLayout_of_isTokenCharacter {character : Char}
    (isToken : isTokenCharacter character = true) : isLayout character = false := by
  by_contra layout
  have blank := isBlank_of_isLayout (by simpa using layout)
  simp [isTokenCharacter, blank] at isToken

private theorem read_eq {name inside : List Char} (some : name ≠ [])
    (named : ∀ character ∈ name, isNameCharacter character = true)
    (inner : ∀ character ∈ inside, (character != '(' && character != ')') = true)
    (rest : List Char) :
    read (name ++ '(' :: (inside ++ ')' :: rest)) =
      .some (⟨String.ofList name, (argumentTexts inside).map tokensOf⟩, rest) := by
  have visible : skipLayout (name ++ '(' :: (inside ++ ')' :: rest)) =
      name ++ '(' :: (inside ++ ')' :: rest) := by
    obtain ⟨first, later, rfl⟩ := List.exists_cons_of_ne_nil some
    have isToken := isTokenCharacter_of_isNameCharacter (named first (by simp))
    exact skipLayout_cons (isLayout_of_isTokenCharacter isToken)
  have nameTaken : (name ++ '(' :: (inside ++ ')' :: rest)).takeWhile isNameCharacter = name :=
    takeWhile_append_mark named (by decide)
  have nameDropped : (name ++ '(' :: (inside ++ ')' :: rest)).dropWhile isNameCharacter =
      '(' :: (inside ++ ')' :: rest) :=
    dropWhile_append_mark named (by decide)
  have opening : skipLayout ('(' :: (inside ++ ')' :: rest)) = '(' :: (inside ++ ')' :: rest) :=
    skipLayout_cons (by decide)
  have insideTaken : (inside ++ ')' :: rest).takeWhile
      (fun character => character != '(' && character != ')') = inside :=
    takeWhile_append_mark inner (by decide)
  have insideDropped : (inside ++ ')' :: rest).dropWhile
      (fun character => character != '(' && character != ')') = ')' :: rest :=
    dropWhile_append_mark inner (by decide)
  unfold read
  simp only [visible, nameTaken, nameDropped, opening, List.isEmpty_eq_false_iff.mpr some,
    insideTaken, insideDropped]
  rfl

theorem read_append {atom : Atom} (written : atom.Written) (rest : List Char) :
    read (atom.text.toList ++ rest) = some (atom, rest) := by
  have inner : ∀ character ∈ insideText atom.arguments,
      (character != '(' && character != ')') = true := by
    intro character member
    rcases mem_intercalate member with isMark | ⟨word, inArguments, inWord⟩
    · rcases List.mem_pair.mp isMark with rfl | rfl
      · decide
      · decide
    · obtain ⟨tokens, inAtom, rfl⟩ := List.mem_map.mp inArguments
      have inArgument := mem_argumentText
        (fun token member => written.tokens token (List.mem_flatten_of_mem inAtom member)) inWord
      have opening := ne_mark inArgument (by decide : isTokenCharacter '(' = false) (by decide)
      have closing := ne_mark inArgument (by decide : isTokenCharacter ')' = false) (by decide)
      simp [opening, closing]
  have arguments := map_tokensOf_insideText written.arguments fun tokens inAtom token member =>
    written.tokens token (List.mem_flatten_of_mem inAtom member)
  have shape : atom.text.toList ++ rest =
      atom.name.toList ++ '(' :: (insideText atom.arguments ++ ')' :: rest) := by
    simp [toList_text]
  rw [shape, read_eq written.name.1 written.name.2 inner, arguments, String.ofList_toList]

private theorem readBodies_space (bound : Nat) (text : List Char) :
    readBodies bound (' ' :: text) = readBodies bound text := by
  cases bound with
  | zero => rfl
  | succ bound => rfl

private theorem readBodies_intercalate {atoms : List Atom} (nonempty : atoms ≠ [])
    (written : ∀ atom ∈ atoms, atom.Written) {bound : Nat} (enough : atoms.length ≤ bound) :
    readBodies bound ([',', ' '].intercalate (atoms.map fun atom => atom.text.toList)) =
      some atoms := by
  induction atoms generalizing bound with
  | nil => exact absurd rfl nonempty
  | cons atom atoms induction =>
      obtain ⟨bound, rfl⟩ := Nat.exists_eq_succ_of_ne_zero (Nat.ne_of_gt
        (Nat.lt_of_lt_of_le (Nat.succ_pos atoms.length) enough))
      have first := read_append (written atom (by simp))
      cases atoms with
      | nil =>
          have whole := first []
          rw [List.append_nil] at whole
          rw [List.map_singleton, List.intercalate_singleton, readBodies, whole]
          rfl
      | cons next atoms =>
          have later := induction (by simp) (fun other member => written other (by simp [member]))
            (Nat.le_of_succ_le_succ enough)
          rw [List.map_cons, List.map_cons, List.intercalate_cons_cons, List.append_assoc,
            readBodies, first]
          simp only [List.cons_append, List.nil_append, skipLayout_cons (by decide :
            isLayout ',' = false)]
          rw [readBodies_space, ← List.map_cons (f := fun atom : Atom => atom.text.toList), later]
          rfl

private theorem length_le_length_intercalate {mark : List Char} {words : List (List Char)}
    (nonempty : ∀ word ∈ words, word ≠ []) :
    words.length ≤ (mark.intercalate words).length := by
  induction words with
  | nil => exact Nat.zero_le _
  | cons word words induction =>
      have positive := List.length_pos_of_ne_nil (nonempty word (by simp))
      have later := induction fun other member => nonempty other (by simp [member])
      cases words with
      | nil =>
          rw [List.intercalate_singleton]
          exact positive
      | cons next words =>
          rw [List.intercalate_cons_cons, List.length_append, List.length_append,
            List.length_cons]
          omega

/-- The marks between the tokens of a clause. -/
private def isInnerMark (character : Char) : Bool :=
  character == ' ' || character == ',' || character == '(' || character == ')'

private theorem not_mem_text {atom : Atom} (written : atom.Written) {mark : Char}
    (notToken : isTokenCharacter mark = false) (notInner : isInnerMark mark = false) :
    mark ∉ atom.text.toList := by
  simp only [isInnerMark, Bool.or_eq_false_iff, beq_eq_false_iff_ne] at notInner
  rw [toList_text, List.mem_append, List.mem_cons, List.mem_append]
  rintro (inName | isMark | inInside | isMark)
  · have isToken := isTokenCharacter_of_isNameCharacter (written.name.2 _ inName)
    rw [notToken] at isToken
    cases isToken
  · exact notInner.1.2 isMark
  · rcases mem_intercalate inInside with inMark | ⟨word, inArguments, inWord⟩
    · rcases List.mem_pair.mp inMark with isComma | isSpace
      · exact notInner.1.1.2 isComma
      · exact notInner.1.1.1 isSpace
    · obtain ⟨tokens, inAtom, rfl⟩ := List.mem_map.mp inArguments
      have inArgument := mem_argumentText
        (fun token member => written.tokens token (List.mem_flatten_of_mem inAtom member)) inWord
      exact ne_mark inArgument notToken notInner.1.1.1 rfl
  · exact notInner.2 (List.mem_singleton.mp isMark)

/-! ## Atoms that were read -/

private theorem of_mem_argumentTexts {text piece : List Char}
    (member : piece ∈ argumentTexts text) : ∀ character ∈ piece, character ∈ text := by
  induction text generalizing piece with
  | nil =>
      cases List.mem_singleton.mp member
      simp
  | cons first text induction =>
      intro character inPiece
      rw [argumentTexts] at member
      split at member
      · rcases List.mem_cons.mp member with rfl | later
        · cases inPiece
        · exact List.mem_cons_of_mem _ (induction later character inPiece)
      · obtain ⟨piece₀, others, cut⟩ := List.exists_cons_of_ne_nil (argumentTexts_ne_nil text)
        rw [cut] at member induction
        rcases List.mem_cons.mp member with rfl | later
        · rcases List.mem_cons.mp inPiece with rfl | inside
          · exact List.mem_cons_self
          · exact List.mem_cons_of_mem _ (induction List.mem_cons_self character inside)
        · exact List.mem_cons_of_mem _
            (induction (List.mem_cons_of_mem _ later) character inPiece)

private theorem mem_of_mem_skipLayout {text : List Char} {character : Char}
    (member : character ∈ skipLayout text) : character ∈ text :=
  (List.dropWhile_suffix isLayout).subset member

private theorem isToken_of_mem_tokensOf {inside : List Char} {tokens : List String}
    {token : String}
    (inner : ∀ character ∈ inside, character ≠ '(' ∧ character ≠ ')')
    (noStop : '.' ∉ inside) (inArguments : tokens ∈ (argumentTexts inside).map tokensOf)
    (inTokens : token ∈ tokens) : IsToken token := by
  obtain ⟨piece, isPiece, rfl⟩ := List.mem_map.mp inArguments
  obtain ⟨word, isField, rfl⟩ := List.mem_map.mp inTokens
  obtain ⟨nonempty, visible⟩ := Text.of_mem_fields isField
  refine ⟨by simpa using nonempty, ?_⟩
  rw [String.toList_ofList]
  intro character inWord
  obtain ⟨inPiece, noSeparator⟩ := visible character inWord
  have taken := of_mem_argumentTexts isPiece character inPiece
  have notBracket := inner character taken
  have notStop : character ≠ '.' := by
    rintro rfl
    exact noStop taken
  simp only [Bool.or_eq_false_iff, beq_eq_false_iff_ne] at noSeparator
  simp [isTokenCharacter, noSeparator.1, noSeparator.2, notBracket.1, notBracket.2, notStop]

private theorem written_of_read {text rest : List Char} {atom : Atom}
    (noStop : '.' ∉ text) (success : read text = some (atom, rest)) :
    atom.Written ∧ '.' ∉ rest := by
  unfold read at success
  simp only at success
  split at success
  · cases success
  · rename_i named
    split at success
    · rename_i inside opened
      split at success
      · rename_i later closed
        cases success
        have inText : ∀ character ∈ inside, character ∈ text := by
          intro character member
          apply mem_of_mem_skipLayout
          apply (List.dropWhile_suffix isNameCharacter).subset
          apply mem_of_mem_skipLayout
          rw [opened]
          exact List.mem_cons_of_mem _ member
        refine ⟨⟨⟨?_, ?_⟩, ?_, ?_⟩, ?_⟩
        · rw [String.toList_ofList]
          simpa using named
        · rw [String.toList_ofList]
          exact fun character member => List.mem_takeWhile_imp member
        · simpa using argumentTexts_ne_nil _
        · intro token member
          obtain ⟨tokens, inArguments, inTokens⟩ := List.mem_flatten.mp member
          refine isToken_of_mem_tokensOf (fun character taken => ?_)
            (fun isStop => noStop (inText _ ((List.takeWhile_prefix _).subset isStop)))
            inArguments inTokens
          simpa using List.mem_takeWhile_imp taken
        · intro isStop
          apply noStop
          apply inText
          apply (List.dropWhile_suffix _).subset
          rw [closed]
          exact List.mem_cons_of_mem _ isStop
      · cases success
    · cases success

private theorem written_of_readBodies {bound : Nat} {text : List Char} {atoms : List Atom}
    (noStop : '.' ∉ text) (success : readBodies bound text = some atoms) :
    ∀ atom ∈ atoms, atom.Written := by
  induction bound generalizing text atoms with
  | zero => cases success
  | succ bound induction =>
      rw [readBodies] at success
      split at success
      · cases success
      · rename_i atom rest atomRead
        have first := written_of_read noStop atomRead
        split at success
        · cases success
          simpa using first.1
        · rename_i later behind
          obtain ⟨others, othersRead, rfl⟩ := Option.map_eq_some_iff.mp success
          have noLaterStop : '.' ∉ later := by
            intro isStop
            apply first.2
            apply mem_of_mem_skipLayout
            rw [behind]
            exact List.mem_cons_of_mem _ isStop
          exact List.forall_mem_cons.mpr ⟨first.1, induction noLaterStop othersRead⟩
        · cases success

end Atom

/-! ## Clauses -/

namespace AtomClause

/-- The head and the bodies have names and tokens that can be read. -/
structure Written (clause : AtomClause) : Prop where
  head : clause.head.Written
  bodies : ∀ body ∈ clause.bodies, body.Written

/-- The written form of a clause, with its full stop. -/
def text (clause : AtomClause) : String :=
  match clause.bodies with
  | [] => clause.head.text ++ "."
  | bodies => Clause.ruleText clause.head.text (bodies.map Atom.text)

/-- The written form of a clause without its full stop. -/
private def plainText (clause : AtomClause) : List Char :=
  match clause.bodies with
  | [] => clause.head.text.toList
  | bodies =>
      clause.head.text.toList ++ ' ' :: ':' :: '-' :: ' ' ::
        [',', ' '].intercalate (bodies.map fun body => body.text.toList)

private theorem toList_text (clause : AtomClause) :
    clause.text.toList = clause.plainText ++ ['.'] := by
  unfold text plainText
  split
  · simp
  · simp [Clause.ruleText, String.toList_intercalate, Function.comp_def]

variable {clause : AtomClause}

private theorem read_plainText (written : clause.Written) :
    read clause.plainText = some clause := by
  obtain ⟨head, bodies⟩ := clause
  unfold plainText
  cases bodies with
  | nil =>
      have whole := Atom.read_append written.head []
      rw [List.append_nil] at whole
      simp only [read, whole]
      rfl
  | cons body bodies =>
      have nonempty : ∀ word ∈ (body :: bodies).map fun body => body.text.toList, word ≠ [] := by
        intro word member
        obtain ⟨atom, _, rfl⟩ := List.mem_map.mp member
        simp [Atom.toList_text]
      have enough := @Atom.length_le_length_intercalate [',', ' '] _ nonempty
      rw [List.length_map] at enough
      have atoms := Atom.readBodies_intercalate (by simp) written.bodies
        (Nat.le_succ_of_le enough)
      simp only [read, Atom.read_append written.head]
      rw [show Atom.skipLayout (' ' :: ':' :: '-' :: ' ' :: _) = ':' :: '-' :: ' ' :: _ from rfl]
      simp only [Atom.readBodies_space, List.length_cons]
      rw [atoms]
      rfl

private theorem not_mem_plainText (written : clause.Written) {mark : Char}
    (notToken : Atom.isTokenCharacter mark = false) (notInner : Atom.isInnerMark mark = false) :
    mark ∉ clause.plainText := by
  have inHead := Atom.not_mem_text written.head notToken notInner
  have notSpace : mark ≠ ' ' := by
    rintro rfl
    cases notInner
  unfold plainText
  split
  · exact inHead
  · rw [List.mem_append]
    rintro (isMark | isMark)
    · exact inHead isMark
    · simp only [List.mem_cons] at isMark
      rcases isMark with isSpace | rfl | rfl | isSpace | inBodies
      · exact notSpace isSpace
      · exact absurd notToken (by decide)
      · exact absurd notToken (by decide)
      · exact notSpace isSpace
      · rcases Atom.mem_intercalate inBodies with inMark | ⟨word, inTexts, inWord⟩
        · rcases List.mem_pair.mp inMark with rfl | isSpace
          · cases notInner
          · exact notSpace isSpace
        · obtain ⟨body, isBody, rfl⟩ := List.mem_map.mp inTexts
          exact Atom.not_mem_text (written.bodies body isBody) notToken notInner inWord

private theorem head?_text (written : clause.Written) :
    clause.text.toList.head?.any Atom.isNameCharacter = true := by
  obtain ⟨first, later, named⟩ := List.exists_cons_of_ne_nil written.head.name.1
  have isName := written.head.name.2 first (by simp [named])
  rw [toList_text]
  unfold plainText
  split
  · simp [Atom.toList_text, named, isName]
  · simp [Atom.toList_text, named, isName]

private theorem trim_text (written : clause.Written) :
    Text.trim clause.text.toList = clause.text.toList := by
  apply Text.trim_eq_self
  · intro character isFirst
    have isName := head?_text written
    rw [isFirst] at isName
    have isToken := Atom.isTokenCharacter_of_isNameCharacter isName
    simp only [Atom.isTokenCharacter, Bool.and_eq_true, Bool.not_eq_true'] at isToken
    exact isToken.1
  · intro character isLast
    rw [toList_text, List.getLast?_concat] at isLast
    cases isLast
    decide

theorem read_text (written : clause.Written) : Rule.read clause.text = clause.toRule := by
  have before : Clause.beforeStop clause.text.toList = clause.plainText := by
    rw [Clause.beforeStop, toList_text,
      Text.cutAt_append (not_mem_plainText written (by decide) (by decide))]
  rw [Rule.read, trim_text written, before, read_plainText written]

/-- A written clause stands on a line of its own. -/
theorem isLine_text (written : clause.Written) :
    Clause.isClauseLine clause.text.toList = true ∧ clause.text.toList ≠ [] ∧
      '\n' ∉ clause.text.toList ∧ '\r' ∉ clause.text.toList := by
  have stop : '.' ∈ clause.text.toList := by
    rw [toList_text]
    simp
  refine ⟨?_, List.ne_nil_of_mem stop, ?_, ?_⟩
  · have noMinus : clause.text.toList.head? ≠ some '-' := by
      intro isMinus
      have isName := head?_text written
      rw [isMinus] at isName
      exact absurd isName (by decide +kernel)
    simp [Clause.isClauseLine, trim_text written, noMinus, stop]
  · rw [toList_text, List.mem_append]
    rintro (inPlain | isStop)
    · exact not_mem_plainText written (by decide) (by decide) inPlain
    · cases List.mem_singleton.mp isStop
  · rw [toList_text, List.mem_append]
    rintro (inPlain | isStop)
    · exact not_mem_plainText written (by decide) (by decide) inPlain
    · cases List.mem_singleton.mp isStop

/-- A clause that was read is written as clauses are. -/
theorem written_of_read {text : List Char}
    (success : read (Clause.beforeStop text) = some clause) : clause.Written := by
  have noStop : '.' ∉ Clause.beforeStop text := by
    have cut := @Text.not_mem_of_cutAt '.' text
    unfold Clause.beforeStop
    split
    · rename_i found
      rwa [found] at cut
    · rename_i found
      rwa [found] at cut
  unfold read at success
  split at success
  · cases success
  · rename_i head rest headRead
    have first := Atom.written_of_read noStop headRead
    split at success
    · cases success
      exact ⟨first.1, by simp⟩
    · rename_i later behind
      obtain ⟨atoms, atomsRead, rfl⟩ := Option.map_eq_some_iff.mp success
      have noLaterStop : '.' ∉ later := by
        intro isStop
        apply first.2
        apply Atom.mem_of_mem_skipLayout
        rw [behind]
        exact List.mem_cons_of_mem _ (List.mem_cons_of_mem _ isStop)
      exact ⟨first.1, Atom.written_of_readBodies noLaterStop atomsRead⟩
    · cases success

end AtomClause

end GrammarReach
