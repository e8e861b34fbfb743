import GrammarReach.Proofs.Bracket.CanonicalLabels

/-!
# Padded labels

Ids are read with an optional plus sign and with leading zeros, and written without them.  So
a label is written as it was read unless it is a bracket whose id is padded in this way, and
two labels denote the same bracket exactly if they differ in the padding alone.
-/

namespace GrammarReach

namespace Text

/-! ## Padded numerals -/

/-- What stands before the digits of a number without changing its value: zeros, perhaps
behind a plus sign. -/
def IsPadding (padding : List Char) : Prop :=
  ∃ zeros, padding = List.replicate zeros '0' ∨ padding = '+' :: List.replicate zeros '0'

theorem isPadding_nil : IsPadding [] :=
  ⟨0, .inl rfl⟩

private theorem digitChar_sub_zero {digit : Char} (isDigit : digit.isDigit = true) :
    (digit.toNat - '0'.toNat).digitChar = digit ∧ digit.toNat - '0'.toNat < 10 := by
  have range : 48 ≤ digit.toNat ∧ digit.toNat ≤ 57 := by
    simpa [Char.isDigit, UInt32.le_iff_toNat_le] using isDigit
  change (digit.toNat - 48).digitChar = digit ∧ digit.toNat - 48 < 10
  refine ⟨Char.toNat_inj.mp ?_, by omega⟩
  rw [Nat.toNat_digitChar_of_lt_ten (by omega)]
  omega

private theorem toDigits_ofDigitChars {value : Nat} (positive : 0 < value) {digits : List Char}
    (allDigits : ∀ digit ∈ digits, digit.isDigit = true) :
    Nat.toDigits 10 (Nat.ofDigitChars 10 digits value) = Nat.toDigits 10 value ++ digits := by
  induction digits generalizing value with
  | nil => simp
  | cons digit digits induction =>
      obtain ⟨first, later⟩ := List.forall_mem_cons.mp allDigits
      obtain ⟨sameChar, small⟩ := digitChar_sub_zero first
      rw [Nat.ofDigitChars_cons, induction (by omega) later,
        ← Nat.toDigits_append_toDigits (by decide) positive small,
        Nat.toDigits_of_lt_base small, sameChar, List.append_assoc, List.singleton_append]

theorem exists_zeros {digits : List Char} (some : digits ≠ [])
    (allDigits : ∀ digit ∈ digits, digit.isDigit = true) :
    ∃ zeros, digits = List.replicate zeros '0' ++ (decimal (digitsValue digits)).toList := by
  simp only [digitsValue, digitsValueFrom_eq_ofDigitChars, toList_decimal]
  induction digits with
  | nil => exact absurd rfl some
  | cons digit digits induction =>
      obtain ⟨first, later⟩ := List.forall_mem_cons.mp allDigits
      obtain ⟨sameChar, small⟩ := digitChar_sub_zero first
      rw [Nat.ofDigitChars_cons, Nat.mul_zero, Nat.zero_add]
      by_cases zero : digit.toNat - '0'.toNat = 0
      · rw [zero] at sameChar ⊢
        cases digits with
        | nil => exact ⟨0, by simp [← sameChar]⟩
        | cons next digits =>
            obtain ⟨zeros, padded⟩ := induction (by simp) later
            refine ⟨zeros + 1, ?_⟩
            rw [List.replicate_succ, List.cons_append, ← padded, ← sameChar]
            rfl
      · refine ⟨0, ?_⟩
        rw [toDigits_ofDigitChars (by omega) later, Nat.toDigits_of_lt_base small, sameChar]
        simp

private theorem dropPlus_of_digits {digits : List Char}
    (allDigits : ∀ digit ∈ digits, digit.isDigit = true) : dropPlus digits = digits := by
  unfold dropPlus
  split
  · exact absurd (allDigits '+' (by simp)) (by decide)
  · rfl

private theorem eq_or_eq_dropPlus (text : List Char) :
    text = dropPlus text ∨ text = '+' :: dropPlus text := by
  unfold dropPlus
  split
  · exact .inr rfl
  · exact .inl rfl

private theorem readNumeral_eq_some {bound value : Nat} {text : List Char} :
    readNumeral bound text = some value ↔ value < bound ∧ dropPlus text ≠ [] ∧
      (∀ digit ∈ dropPlus text, digit.isDigit = true) ∧ digitsValue (dropPlus text) = value := by
  by_cases wellFormed : dropPlus text ≠ [] ∧ ∀ digit ∈ dropPlus text, digit.isDigit = true
  · have accepted : ((dropPlus text).isEmpty || !(dropPlus text).all Char.isDigit) = false := by
      simpa using wellFormed
    simp only [readNumeral, accepted, Bool.false_eq_true, if_false]
    constructor
    · intro success
      split at success
      · cases success
        exact ⟨‹_›, wellFormed.1, wellFormed.2, rfl⟩
      · cases success
    · rintro ⟨below, _, _, rfl⟩
      exact if_pos below
  · have refused : ((dropPlus text).isEmpty || !(dropPlus text).all Char.isDigit) = true := by
      rw [← Bool.not_eq_false]
      intro accepted
      exact wellFormed (by simpa using accepted)
    simp only [readNumeral, refused, if_true]
    exact iff_of_false (by simp) fun both => wellFormed ⟨both.2.1, both.2.2.1⟩

/-- A text is read as a number when it is the decimal form of the number with padding. -/
theorem readNumeral_eq_some_iff {bound value : Nat} {text : List Char} :
    readNumeral bound text = some value ↔ value < bound ∧
      ∃ padding, IsPadding padding ∧ text = padding ++ (decimal value).toList := by
  rw [readNumeral_eq_some]
  refine and_congr_right fun _ => ⟨?_, ?_⟩
  · rintro ⟨some, allDigits, rfl⟩
    obtain ⟨zeros, padded⟩ := exists_zeros some allDigits
    rcases eq_or_eq_dropPlus text with same | plus
    · exact ⟨_, ⟨zeros, .inl rfl⟩, same.trans padded⟩
    · refine ⟨_, ⟨zeros, .inr rfl⟩, ?_⟩
      rw [List.cons_append, ← padded]
      exact plus
  · rintro ⟨padding, ⟨zeros, isPadding⟩, rfl⟩
    have allDigits : ∀ digit ∈ List.replicate zeros '0' ++ (decimal value).toList,
        digit.isDigit = true := by
      intro digit member
      rcases List.mem_append.mp member with inZeros | inDecimal
      · rw [List.eq_of_mem_replicate inZeros]
        decide
      · exact isDigit_of_mem_decimal inDecimal
    have digits : dropPlus (padding ++ (decimal value).toList) =
        List.replicate zeros '0' ++ (decimal value).toList := by
      rcases isPadding with rfl | rfl
      · exact dropPlus_of_digits allDigits
      · rfl
    rw [digits]
    refine ⟨by simp [toList_decimal, Nat.toDigits_ne_nil], allDigits, ?_⟩
    rw [digitsValue, digitsValueFrom_eq_ofDigitChars, Nat.ofDigitChars_append,
      Nat.ofDigitChars_replicate_zero, Nat.mul_zero, toList_decimal,
      Nat.ofDigitChars_ten_toDigits]

end Text

/-! ## Padded brackets -/

namespace BracketFamily

/-- The label of a bracket with some characters in front of the digits of its id. -/
def paddedLabel (role : Char) (family : BracketFamily) (padding : List Char) (id : Nat) : Label :=
  String.ofList ([role, family.tag, '-', '-'] ++ padding) ++ Text.decimal id

theorem toList_paddedLabel (role : Char) (family : BracketFamily) (padding : List Char)
    (id : Nat) : (family.paddedLabel role padding id).toList =
      role :: family.tag :: '-' :: '-' :: (padding ++ (Text.decimal id).toList) := by
  simp [paddedLabel]

theorem eq_tag_of_ofTag {tag : Char} {family : BracketFamily} (found : ofTag tag = some family) :
    tag = family.tag := by
  unfold ofTag at found
  split at found
  · cases found
    rfl
  · cases found
    rfl
  · cases found

end BracketFamily

namespace BracketLabel

/-- The label is a bracket whose id has the given padding. -/
inductive Spells (padding : List Char) : Label → BracketLabel → Prop where
  | opening (family : BracketFamily) {id : Nat} (below : id < Text.halfWordBound) :
      Spells padding (family.paddedLabel 'o' padding id) (.opening family id)
  | closing (family : BracketFamily) {id : Nat} (below : id < Text.halfWordBound) :
      Spells padding (family.paddedLabel 'c' padding id) (.closing family id)

/-- The label is a bracket, and something stands before the digits of its id. -/
def IsPadded (label : Label) : Prop :=
  ∃ padding bracket, Text.IsPadding padding ∧ padding ≠ [] ∧ Spells padding label bracket

variable {label other : Label} {bracket : BracketLabel} {padding : List Char}

private theorem read_paddedLabel {role : Char} (family : BracketFamily) {id : Nat}
    (isPadding : Text.IsPadding padding) (below : id < Text.halfWordBound)
    (notNormal : role ≠ 'n') : read (family.paddedLabel role padding id) =
      if role = 'o' then .opening family id else if role = 'c' then .closing family id
      else .other (family.paddedLabel role padding id) := by
  have characters := family.toList_paddedLabel role padding id
  have notEpsilon : family.paddedLabel role padding id ≠ Grammar.epsilon := by
    intro same
    rw [same] at characters
    simp [Grammar.epsilon] at characters
  have different : family.paddedLabel role padding id ≠ normalLabel := by
    intro same
    rw [same] at characters
    exact notNormal (List.cons.inj characters).1.symm
  have numeral : Text.readNumeral Text.halfWordBound (padding ++ (Text.decimal id).toList) =
      some id := Text.readNumeral_eq_some_iff.mpr ⟨below, padding, isPadding, rfl⟩
  rw [read, if_neg notEpsilon, if_neg different, characters]
  simp only [family.ofTag_tag, numeral]

theorem read_of_spells (isPadding : Text.IsPadding padding)
    (spells : Spells padding label bracket) : read label = bracket := by
  cases spells with
  | opening family below => exact read_paddedLabel family isPadding below (by decide)
  | closing family below => exact read_paddedLabel family isPadding below (by decide)

/-- A label is read as `epsilon`, `normal` or itself if it is written so, and as a bracket only
if it spells this bracket. -/
theorem text_or_spells (label : Label) :
    (read label).text = label ∨
      ∃ padding, Text.IsPadding padding ∧ Spells padding label (read label) := by
  generalize reading : read label = bracket
  unfold read at reading
  split at reading
  · subst reading
    exact .inl (Eq.symm ‹_›)
  split at reading
  · subst reading
    exact .inl (Eq.symm ‹_›)
  split at reading
  · rename_i role tag digits characters
    split at reading
    · rename_i family id isFamily isNumeral
      obtain ⟨below, padding, isPadding, rfl⟩ := Text.readNumeral_eq_some_iff.mp isNumeral
      have spelled : label = family.paddedLabel role padding id := by
        apply String.toList_inj.mp
        rw [characters, BracketFamily.toList_paddedLabel,
          BracketFamily.eq_tag_of_ofTag isFamily]
      split at reading
      · rename_i isOpening
        subst reading isOpening
        exact .inr ⟨padding, isPadding, spelled ▸ .opening family below⟩
      · split at reading
        · rename_i isClosing
          subst reading isClosing
          exact .inr ⟨padding, isPadding, spelled ▸ .closing family below⟩
        · subst reading
          exact .inl rfl
    · subst reading
      exact .inl rfl
  · subst reading
    exact .inl rfl

theorem Spells.text_eq_iff (spells : Spells padding label bracket) :
    bracket.text = label ↔ padding = [] := by
  have written : ∀ (role : Char) (family : BracketFamily) (id : Nat),
      family.labelWith role id = family.paddedLabel role padding id ↔ padding = [] := by
    intro role family id
    rw [← String.toList_inj, BracketFamily.toList_labelWith, BracketFamily.toList_paddedLabel]
    simp
  cases spells with
  | opening family below => exact written 'o' family _
  | closing family below => exact written 'c' family _

theorem Spells.unpadded (spells : Spells padding label bracket) :
    Spells [] bracket.text bracket := by
  cases spells with
  | opening family below => exact .opening family below
  | closing family below => exact .closing family below

theorem text_read_eq_iff : (read label).text = label ↔ ¬ IsPadded label := by
  constructor
  · rintro same ⟨padding, bracket, isPadding, padded, spells⟩
    rw [read_of_spells isPadding spells] at same
    exact padded (spells.text_eq_iff.mp same)
  · intro notPadded
    rcases text_or_spells label with same | ⟨padding, isPadding, spells⟩
    · exact same
    · refine spells.text_eq_iff.mpr (Classical.not_not.mp fun padded => ?_)
      exact notPadded ⟨padding, _, isPadding, padded, spells⟩

theorem read_eq_read_iff : read label = read other ↔ label = other ∨
    ∃ padding otherPadding bracket, Text.IsPadding padding ∧ Text.IsPadding otherPadding ∧
      Spells padding label bracket ∧ Spells otherPadding other bracket := by
  constructor
  · intro same
    rcases text_or_spells label, text_or_spells other with
      ⟨written | ⟨padding, isPadding, spells⟩, otherWritten | ⟨otherPadding, isOther, otherSpells⟩⟩
    · left
      rw [← written, same, otherWritten]
    · have unpadded := otherSpells.unpadded
      rw [← same, written] at unpadded
      exact .inr ⟨[], otherPadding, read label, Text.isPadding_nil, isOther, unpadded,
        same ▸ otherSpells⟩
    · have unpadded := spells.unpadded
      rw [same, otherWritten] at unpadded
      exact .inr ⟨padding, [], read label, isPadding, Text.isPadding_nil, spells,
        same ▸ unpadded⟩
    · exact .inr ⟨padding, otherPadding, read label, isPadding, isOther, spells,
        same ▸ otherSpells⟩
  · rintro (rfl | ⟨padding, otherPadding, bracket, isPadding, isOther, spells, otherSpells⟩)
    · rfl
    · rw [read_of_spells isPadding spells, read_of_spells isOther otherSpells]

/-- Reading a label keeps its text except for the padding of ids: just the padded labels are
written in another way, and just labels that differ in padding alone denote the same.  The
labels of brackets with small ids are read back as these brackets. -/
theorem spellings_exact (label : String) :
    ((read label).text = label ↔ ¬ IsPadded label) ∧
    (∀ other, read label = read other ↔ label = other ∨
      ∃ padding otherPadding bracket, Text.IsPadding padding ∧ Text.IsPadding otherPadding ∧
        Spells padding label bracket ∧ Spells otherPadding other bracket) ∧
    ∀ (family : BracketFamily) id,
      read (family.openLabel id) = (if id < Text.halfWordBound then .opening family id
        else .other (family.openLabel id)) ∧
      read (family.closeLabel id) = (if id < Text.halfWordBound then .closing family id
        else .other (family.closeLabel id)) :=
  ⟨text_read_eq_iff, fun _ => read_eq_read_iff, fun family id =>
    ⟨read_openLabel_eq family id, read_closeLabel_eq family id⟩⟩

/-- A zero in front of an id is lost, and so two labels denote one bracket. -/
theorem text_read_zeroPadded :
    (read "op--01").text ≠ "op--01" ∧ read "op--01" = read "op--1" := by
  decide

end BracketLabel

end GrammarReach
