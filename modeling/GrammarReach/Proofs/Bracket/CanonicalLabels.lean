import GrammarReach.Bracket.Label

/-!
# Canonical labels

A bracket label is canonical when its id is written with the fewest digits and
stays below the bound of ids.  Canonical labels are read back as the brackets
that they were written for, so different brackets have different labels.
-/

namespace GrammarReach

namespace Text

private theorem digitsValueFrom_cons
    (value : Nat) (digit : Char) (digits : List Char) :
    digitsValueFrom value (digit :: digits) =
      digitsValueFrom (value * 10 + (digit.toNat - '0'.toNat)) digits := by
  rfl

theorem digitsValueFrom_eq_ofDigitChars (digits : List Char) (value : Nat) :
    digitsValueFrom value digits = Nat.ofDigitChars 10 digits value := by
  induction digits generalizing value with
  | nil => exact Nat.ofDigitChars_nil.symm
  | cons digit digits induction =>
      rw [digitsValueFrom_cons, induction, Nat.ofDigitChars_cons, Nat.mul_comm]

theorem toList_decimal (value : Nat) :
    (decimal value).toList = Nat.toDigits 10 value := by
  simp [decimal]

theorem digitsValue_decimal (value : Nat) :
    digitsValue (decimal value).toList = value := by
  rw [digitsValue, digitsValueFrom_eq_ofDigitChars, toList_decimal]
  exact Nat.ofDigitChars_ten_toDigits

theorem isDigit_of_mem_decimal {value : Nat} {digit : Char}
    (member : digit ∈ (decimal value).toList) : digit.isDigit = true := by
  rw [toList_decimal] at member
  exact Nat.isDigit_of_mem_toDigits (by decide) (by decide) member

theorem dropPlus_decimal (value : Nat) :
    dropPlus (decimal value).toList = (decimal value).toList := by
  cases digits : (decimal value).toList with
  | nil => rfl
  | cons digit rest =>
      have member : digit ∈ (decimal value).toList := by simp [digits]
      have isDigit : digit.isDigit = true := isDigit_of_mem_decimal member
      have notPlus : digit ≠ '+' := by
        intro same
        subst same
        exact absurd isDigit (by decide)
      unfold dropPlus
      split
      · rename_i equality
        exact absurd (List.cons.inj equality).1 notPlus
      · rfl

theorem readNumeral_decimal (value bound : Nat) :
    readNumeral bound (decimal value).toList =
      if value < bound then some value else none := by
  have allDigits : (decimal value).toList.all Char.isDigit = true :=
    List.all_eq_true.mpr fun _ member => isDigit_of_mem_decimal member
  have nonempty : (decimal value).toList.isEmpty = false := by
    simp [toList_decimal, Nat.toDigits_ne_nil]
  simp [readNumeral, dropPlus_decimal, allDigits, nonempty,
    digitsValue_decimal]

theorem decimal_injective {left right : Nat}
    (same : decimal left = decimal right) : left = right := by
  rw [← digitsValue_decimal left, same, digitsValue_decimal]

end Text

namespace BracketFamily

theorem toList_labelWith (role : Char) (family : BracketFamily) (id : Nat) :
    (labelWith role family id).toList =
      role :: family.tag :: '-' :: '-' :: (Text.decimal id).toList := by
  simp [labelWith]

private theorem labelWith_ne_epsilon (role : Char) (family : BracketFamily) (id : Nat) :
    labelWith role family id ≠ Grammar.epsilon := by
  intro same
  have characters := congrArg String.toList same
  rw [toList_labelWith] at characters
  simp [Grammar.epsilon] at characters

theorem openLabel_ne_epsilon (family : BracketFamily) (id : Nat) :
    family.openLabel id ≠ Grammar.epsilon :=
  labelWith_ne_epsilon 'o' family id

theorem closeLabel_ne_epsilon (family : BracketFamily) (id : Nat) :
    family.closeLabel id ≠ Grammar.epsilon :=
  labelWith_ne_epsilon 'c' family id

theorem ofTag_tag (family : BracketFamily) : ofTag family.tag = some family := by
  cases family <;> rfl

theorem other_ne (family : BracketFamily) : family.other ≠ family := by
  cases family <;> decide

theorem eq_or_eq_other (family owner : BracketFamily) :
    owner = family ∨ owner = family.other := by
  cases family <;> cases owner <;> simp [other]

end BracketFamily

namespace BracketLabel

private theorem read_labelWith {role : Char} (family : BracketFamily) (id : Nat)
    (isRole : role = 'o' ∨ role = 'c') :
    read (family.labelWith role id) =
      if id < Text.halfWordBound then
        if role = 'o' then .opening family id else .closing family id
      else .other (family.labelWith role id) := by
  have characters := family.toList_labelWith role id
  have notEpsilon : family.labelWith role id ≠ Grammar.epsilon := by
    intro same
    rw [same] at characters
    simp [Grammar.epsilon] at characters
  have notNormal : family.labelWith role id ≠ normalLabel := by
    intro same
    rw [same] at characters
    have firstTwo := congrArg (List.take 2) characters
    rcases isRole with rfl | rfl <;> simp [normalLabel] at firstTwo
  unfold read
  rw [if_neg notEpsilon, if_neg notNormal, characters]
  simp only [family.ofTag_tag, Text.readNumeral_decimal]
  by_cases below : id < Text.halfWordBound
  · rw [if_pos below, if_pos below]
    rcases isRole with rfl | rfl
    · rfl
    · rfl
  · rw [if_neg below, if_neg below]

theorem read_openLabel_eq (family : BracketFamily) (id : Nat) :
    read (family.openLabel id) =
      if id < Text.halfWordBound then .opening family id
      else .other (family.openLabel id) :=
  read_labelWith family id (Or.inl rfl)

theorem read_closeLabel_eq (family : BracketFamily) (id : Nat) :
    read (family.closeLabel id) =
      if id < Text.halfWordBound then .closing family id
      else .other (family.closeLabel id) :=
  read_labelWith family id (Or.inr rfl)

@[simp] theorem read_openLabel (family : BracketFamily) {id : Nat}
    (below : id < Text.halfWordBound) :
    read (family.openLabel id) = .opening family id := by
  rw [read_openLabel_eq, if_pos below]

@[simp] theorem read_closeLabel (family : BracketFamily) {id : Nat}
    (below : id < Text.halfWordBound) :
    read (family.closeLabel id) = .closing family id := by
  rw [read_closeLabel_eq, if_pos below]

@[simp] theorem read_normalLabel : read normalLabel = .normal := by
  decide

@[simp] theorem read_epsilon : read Grammar.epsilon = .epsilon := by
  decide

private theorem id_below_of_readNumeral {bound id : Nat} {digits : List Char}
    (success : Text.readNumeral bound digits = some id) : id < bound := by
  simp only [Text.readNumeral] at success
  split at success
  · cases success
  · split at success
    · rename_i below
      cases success
      exact below
    · cases success

/-- The id of a bracket that was read is below the bound of ids. -/
theorem id_below_of_read {label : Label} {family : BracketFamily} {id : Nat}
    (bracket : (read label).bracket? = some (family, id)) :
    id < Text.halfWordBound := by
  unfold read at bracket
  split at bracket
  · cases bracket
  split at bracket
  · cases bracket
  split at bracket
  · split at bracket
    · rename_i success
      split at bracket
      · cases bracket
        exact id_below_of_readNumeral success
      · split at bracket
        · cases bracket
          exact id_below_of_readNumeral success
        · cases bracket
    · cases bracket
  · cases bracket

end BracketLabel

/-- `normal`, or a bracket whose id is written with the fewest digits. -/
inductive CanonicalLabel : Label → Prop where
  | normal : CanonicalLabel normalLabel
  | opening (family : BracketFamily) {id : Nat} :
      id < Text.halfWordBound → CanonicalLabel (family.openLabel id)
  | closing (family : BracketFamily) {id : Nat} :
      id < Text.halfWordBound → CanonicalLabel (family.closeLabel id)

namespace CanonicalLabel

theorem ne_epsilon {label : Label} (canonical : CanonicalLabel label) :
    label ≠ Grammar.epsilon := by
  intro same
  have reading : BracketLabel.read label = .epsilon := by simp [same]
  cases canonical with
  | normal => simp at reading
  | opening family below => simp [below] at reading
  | closing family below => simp [below] at reading

end CanonicalLabel

end GrammarReach
