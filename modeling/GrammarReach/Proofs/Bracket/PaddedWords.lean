import GrammarReach.Proofs.Bracket.AcceptedWalks
import GrammarReach.Proofs.Bracket.InterleavedAnswers

/-!
# Padded words

Interleaved words can be put anywhere into a word without changing whether it is accepted:
in each family their brackets match among themselves, and so they cancel as well.  Put into
an interleaved word they leave it interleaved.
-/

namespace GrammarReach

/-- Words that come about by putting interleaved words into a core, one after the other. -/
inductive Padded (core : List Label) : List Label → Prop where
  | core : Padded core core
  | pad {before inner behind : List Label} :
      Padded core (before ++ behind) → Interleaved inner →
      Padded core (before ++ (inner ++ behind))

namespace Padded

variable {core word other : List Label}

theorem append_right (padded : Padded core word) (behind : List Label) :
    Padded (core ++ behind) (word ++ behind) := by
  induction padded with
  | core => exact .core
  | pad _ interleaved induction =>
      rw [List.append_assoc] at induction
      simpa using induction.pad interleaved

theorem append_left (padded : Padded core word) (before : List Label) :
    Padded (before ++ core) (before ++ word) := by
  induction padded with
  | core => exact .core
  | pad _ interleaved induction =>
      rw [← List.append_assoc] at induction ⊢
      exact induction.pad interleaved

theorem trans {last : List Label} (padded : Padded core word) (more : Padded word last) :
    Padded core last := by
  induction more with
  | core => exact padded
  | pad _ interleaved induction => exact induction.pad interleaved

theorem append {otherCore : List Label} (padded : Padded core word)
    (otherPadded : Padded otherCore other) : Padded (core ++ otherCore) (word ++ other) :=
  (padded.append_right otherCore).trans (otherPadded.append_left word)

theorem of_interleaved (interleaved : Interleaved word) : Padded [] word := by
  simpa using @pad [] [] word [] .core interleaved

end Padded

/-! ## Padding interleaved words -/

private theorem interleaved_insert {inner word : List Label} (padding : Interleaved inner)
    (interleaved : Interleaved word) :
    ∀ before behind, word = before ++ behind → Interleaved (before ++ (inner ++ behind)) := by
  have outside : ∀ {word : List Label}, Interleaved word →
      Interleaved (inner ++ word) ∧ Interleaved (word ++ inner) :=
    fun whole => ⟨padding.append whole, whole.append padding⟩
  induction interleaved with
  | normal =>
      intro before behind split
      rcases List.singleton_eq_append_iff.mp split with ⟨rfl, rfl⟩ | ⟨rfl, rfl⟩
      · exact (outside .normal).1
      · simpa using (outside .normal).2
  | append first second firstInduction secondInduction =>
      intro before behind split
      rcases List.append_eq_append_iff.mp split with ⟨middle, rfl, rfl⟩ | ⟨middle, rfl, rfl⟩
      · rw [List.append_assoc]
        exact first.append (secondInduction middle behind rfl)
      · rw [← List.append_assoc inner, ← List.append_assoc before]
        exact (firstInduction before middle rfl).append second
  | pair family below =>
      intro before behind split
      have whole := Interleaved.pair family below
      rcases before with _ | ⟨opened, _ | ⟨closed, rest⟩⟩
      · rw [List.nil_append] at split ⊢
        rw [← split]
        exact (outside whole).1
      · cases split
        exact padding.wrap family below
      · simp only [List.cons_append, List.cons.injEq, List.nil_eq, List.append_eq_nil_iff] at split
        obtain ⟨rfl, rfl, rfl, rfl⟩ := split
        simpa using (outside whole).2
  | @wrap family id enclosed below within induction =>
      intro before behind split
      have whole := Interleaved.wrap family below within
      rcases before with _ | ⟨opened, before⟩
      · rw [List.nil_append] at split ⊢
        rw [← split]
        exact (outside whole).1
      · rw [List.cons_append, List.cons.injEq] at split
        obtain ⟨rfl, rest⟩ := split
        rcases List.eq_nil_or_concat behind with rfl | ⟨behind, closed, rfl⟩
        · rw [List.append_nil] at rest
          subst rest
          simpa using (outside whole).2
        · rw [List.concat_eq_append, ← List.append_assoc] at rest
          obtain ⟨rfl, same⟩ := List.append_inj' rest rfl
          cases same
          simpa using (induction before behind rfl).wrap family below

theorem Interleaved.padded {core word : List Label} (interleaved : core = [] ∨ Interleaved core)
    (padded : Padded core word) : word = [] ∨ Interleaved word := by
  induction padded with
  | core => exact interleaved
  | @pad before inner behind _ padding induction =>
      right
      rcases induction with empty | whole
      · obtain ⟨rfl, rfl⟩ := List.append_eq_nil_iff.mp empty
        simpa using padding
      · exact interleaved_insert padding whole before behind rfl

/-! ## Padding accepted words -/

/-- Padding with labels of the graph brings known labels only. -/
theorem BracketComponent.Proper.covers_of_padded {component : BracketComponent}
    (proper : component.Proper) {core word : List Label} (padded : Padded core word)
    (covered : ∀ label ∈ core, component.ids.Covers label)
    (occurs : ∀ label ∈ word, label ∈ wordOf component.graph.labelledEdges) :
    ∀ label ∈ word, component.ids.Covers label := by
  induction padded with
  | core => exact covered
  | @pad before inner behind _ padding induction =>
      have outer := induction fun label member => occurs label (by
        simp only [List.mem_append] at member ⊢
        exact member.imp_right .inr)
      have within := proper.covers_of_matched padding.canonical padding.matched
        fun label member => occurs label (by simp [member])
      intro label member
      simp only [List.mem_append] at member outer
      rcases member with early | inside | late
      · exact outer label (.inl early)
      · exact within label inside
      · exact outer label (.inr late)

theorem GrammarChoice.Accepts.padded {choice : GrammarChoice} {family : BracketFamily}
    {ids : BracketIds} {core word : List Label} (within : choice.WithinWord)
    (accepts : choice.Accepts family ids core) (padded : Padded core word) :
    choice.Accepts family ids word := by
  induction padded with
  | core => exact accepts
  | pad _ interleaved outer =>
      refine ⟨?_, fun augmented => ?_⟩
      · exact (outer.matched.insert (interleaved.matched family)).wellNested_only
      · have cancels := (within.cancelsInWord_iff augmented).mp (outer.cancels augmented)
        rw [within.cancelsInWord_iff augmented]
        rw [BracketFamily.bracketsOf_append] at cancels
        rw [BracketFamily.bracketsOf_append, BracketFamily.bracketsOf_append]
        exact cancels.insert ((interleaved.matched family.other).cancels _)

end GrammarReach
