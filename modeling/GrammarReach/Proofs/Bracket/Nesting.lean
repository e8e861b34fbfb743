import GrammarReach.Proofs.Bracket.CanonicalLabels

/-!
# Nested words

A word is nested in a family when the brackets of that family, with everything
else dropped, match like parentheses.  `Matched` describes the same words with
the dropped labels still in place, which is the form that grammars produce.
-/

namespace GrammarReach

namespace BracketFamily

/-- The label is read as a bracket of the family. -/
def owns (family : BracketFamily) (label : Label) : Bool :=
  match (BracketLabel.read label).bracket? with
  | some (owner, _) => decide (owner = family)
  | none => false

/-- The brackets of the family in a word; everything else is dropped. -/
def only (family : BracketFamily) (word : List Label) : List Label :=
  word.filter family.owns

/-- Words over the brackets of the family in which every bracket closes the
last one that is open. -/
inductive WellNested (family : BracketFamily) : List Label → Prop where
  | nil : WellNested family []
  | wrap (id : Nat) {inner rest : List Label} :
      WellNested family inner → WellNested family rest →
      WellNested family
        (family.openLabel id :: (inner ++ family.closeLabel id :: rest))

/-- Words in which the brackets of the family match, with other labels at any
place. -/
inductive Matched (family : BracketFamily) : List Label → Prop where
  | nil : Matched family []
  | pass {label : Label} {rest : List Label} :
      family.owns label = false → Matched family rest →
      Matched family (label :: rest)
  | wrap {id : Nat} {inner rest : List Label} :
      id < Text.halfWordBound → Matched family inner → Matched family rest →
      Matched family
        (family.openLabel id :: (inner ++ family.closeLabel id :: rest))

theorem owns_openLabel (family owner : BracketFamily) (id : Nat) :
    family.owns (owner.openLabel id) =
      decide (owner = family ∧ id < Text.halfWordBound) := by
  by_cases below : id < Text.halfWordBound
  · simp [owns, BracketLabel.read_openLabel owner below,
      BracketLabel.bracket?, below]
  · simp [owns, BracketLabel.read_openLabel_eq, BracketLabel.bracket?, below]

theorem owns_closeLabel (family owner : BracketFamily) (id : Nat) :
    family.owns (owner.closeLabel id) =
      decide (owner = family ∧ id < Text.halfWordBound) := by
  by_cases below : id < Text.halfWordBound
  · simp [owns, BracketLabel.read_closeLabel owner below,
      BracketLabel.bracket?, below]
  · simp [owns, BracketLabel.read_closeLabel_eq, BracketLabel.bracket?, below]

@[simp] theorem owns_normalLabel (family : BracketFamily) :
    family.owns normalLabel = false := by
  simp [owns, BracketLabel.bracket?]

@[simp] theorem owns_epsilon (family : BracketFamily) :
    family.owns Grammar.epsilon = false := by
  simp [owns, BracketLabel.bracket?]

theorem only_append (family : BracketFamily) (left right : List Label) :
    family.only (left ++ right) = family.only left ++ family.only right :=
  List.filter_append left right

private theorem only_wrap (family : BracketFamily) {id : Nat}
    (below : id < Text.halfWordBound) (inner rest : List Label) :
    family.only (family.openLabel id :: (inner ++ family.closeLabel id :: rest)) =
      family.openLabel id ::
        (family.only inner ++ family.closeLabel id :: family.only rest) := by
  have opens : family.owns (family.openLabel id) = true := by
    simp [owns_openLabel, below]
  have closes : family.owns (family.closeLabel id) = true := by
    simp [owns_closeLabel, below]
  simp [only, opens, closes]

theorem Matched.wellNested_only {family : BracketFamily} {word : List Label}
    (matched : family.Matched word) : family.WellNested (family.only word) := by
  induction matched with
  | nil => exact .nil
  | @pass label rest foreign _ induction =>
      simpa [only, foreign] using induction
  | @wrap id inner rest below _ _ innerNested restNested =>
      rw [only_wrap family below]
      exact .wrap id innerNested restNested

private theorem exists_split_of_only_eq_cons {family : BracketFamily}
    {word tail : List Label} {label : Label}
    (shape : family.only word = label :: tail) :
    ∃ before rest, word = before ++ label :: rest ∧
      (∀ other ∈ before, family.owns other = false) ∧
      family.owns label = true ∧ family.only rest = tail := by
  obtain ⟨before, rest, equality, foreign, owned, remaining⟩ :=
    List.filter_eq_cons_iff.mp shape
  refine ⟨before, rest, equality, ?_, owned, remaining⟩
  intro other member
  simpa using foreign other member

private theorem Matched.pass_all {family : BracketFamily}
    {before rest : List Label}
    (foreign : ∀ label ∈ before, family.owns label = false)
    (matched : family.Matched rest) : family.Matched (before ++ rest) := by
  induction before with
  | nil => exact matched
  | cons label before induction =>
      have tail : family.Matched (before ++ rest) :=
        induction fun other member => foreign other (by simp [member])
      exact .pass (foreign label (by simp)) tail

private theorem matched_of_only_eq {family : BracketFamily}
    {kept : List Label} (nested : family.WellNested kept) :
    ∀ word, family.only word = kept → family.Matched word := by
  induction nested with
  | nil =>
      intro word shape
      have foreign : ∀ label ∈ word, family.owns label = false := by
        intro label member
        simpa using List.filter_eq_nil_iff.mp shape label member
      simpa using Matched.pass_all foreign (.nil : family.Matched [])
  | @wrap id inner rest _ _ innerInduction restInduction =>
      intro word shape
      obtain ⟨before, opened, rfl, foreign, owned, openedShape⟩ :=
        exists_split_of_only_eq_cons shape
      obtain ⟨inside, closed, rfl, insideShape, closedShape⟩ :=
        List.filter_eq_append_iff.mp openedShape
      obtain ⟨padding, remaining, rfl, paddingForeign, _, remainingShape⟩ :=
        exists_split_of_only_eq_cons closedShape
      have below : id < Text.halfWordBound := by
        simpa [owns_openLabel] using owned
      have paddingEmpty : family.only padding = [] :=
        List.filter_eq_nil_iff.mpr fun label member => by
          simp [paddingForeign label member]
      have insideMatched : family.Matched (inside ++ padding) := by
        apply innerInduction
        rw [only_append, paddingEmpty, List.append_nil]
        exact insideShape
      have wrapped := Matched.wrap below insideMatched
        (restInduction remaining remainingShape)
      exact Matched.pass_all foreign (by simpa using wrapped)

theorem wellNested_only_iff {family : BracketFamily} {word : List Label} :
    family.WellNested (family.only word) ↔ family.Matched word :=
  ⟨fun nested => matched_of_only_eq nested word rfl,
    Matched.wellNested_only⟩

theorem Matched.append {family : BracketFamily} {left right : List Label}
    (leftMatched : family.Matched left) (rightMatched : family.Matched right) :
    family.Matched (left ++ right) := by
  induction leftMatched with
  | nil => exact rightMatched
  | pass foreign _ induction => exact .pass foreign induction
  | wrap below inner _ _ restInduction =>
      simpa using Matched.wrap below inner restInduction

theorem Matched.enclose {family : BracketFamily} {word : List Label} {id : Nat}
    (below : id < Text.halfWordBound) (matched : family.Matched word) :
    family.Matched (family.openLabel id :: (word ++ [family.closeLabel id])) :=
  .wrap below matched .nil

/-- A matched word can be put anywhere into a matched word. -/
theorem Matched.insert {family : BracketFamily} {before inner behind : List Label}
    (outer : family.Matched (before ++ behind)) (matched : family.Matched inner) :
    family.Matched (before ++ (inner ++ behind)) := by
  generalize whole : before ++ behind = word at outer
  induction outer generalizing before behind with
  | nil =>
      obtain ⟨rfl, rfl⟩ := List.append_eq_nil_iff.mp whole
      simpa using matched
  | @pass label rest foreign restMatched induction =>
      rcases List.append_eq_cons_iff.mp whole with ⟨rfl, rfl⟩ | ⟨tail, rfl, rfl⟩
      · exact matched.append (.pass foreign restMatched)
      · exact .pass foreign (induction rfl)
  | @wrap id wrapped rest below wrappedMatched restMatched wrappedInduction restInduction =>
      rcases List.append_eq_cons_iff.mp whole with ⟨rfl, rfl⟩ | ⟨tail, rfl, split⟩
      · exact matched.append (.wrap below wrappedMatched restMatched)
      · rcases List.append_eq_append_iff.mp split with
          ⟨left, rfl, closing⟩ | ⟨left, rfl, rfl⟩
        · rcases List.append_eq_cons_iff.mp closing.symm with ⟨rfl, rfl⟩ | ⟨later, rfl, rfl⟩
          · simpa using Matched.wrap below (wrappedMatched.append matched) restMatched
          · simpa using Matched.wrap below wrappedMatched (restInduction rfl)
        · simpa using Matched.wrap below (wrappedInduction rfl) restMatched

end BracketFamily

end GrammarReach
