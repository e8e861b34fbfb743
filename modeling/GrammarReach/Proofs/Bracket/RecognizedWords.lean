import GrammarReach.Proofs.Bracket.BalancedAnswers
import GrammarReach.Proofs.Bracket.BalancedWalks

/-!
# Recognized words

A grammar recognizes a word if, over the graph of that word alone, it answers with the
whole word.  The balanced grammar recognizes the nonempty words over known labels in which
the brackets of its family match, so epsilon loops on the way change nothing.
-/

namespace GrammarReach

/-! ## Walks without epsilon loops -/

/-- The edges of a walk without the epsilon loops. -/
def withoutLoops (path : List Edge) : List Edge :=
  path.filter fun edge => !edge.isEpsilonLoop

section Loops

variable {edge : Edge} {path : List Edge} {start stop : Vertex}

theorem mem_withoutLoops :
    edge ∈ withoutLoops path ↔ edge ∈ path ∧ edge.isEpsilonLoop = false := by
  simp [withoutLoops]

theorem withoutLoops_cons_of_loop (loop : edge.isEpsilonLoop = true) :
    withoutLoops (edge :: path) = withoutLoops path :=
  List.filter_cons_of_neg (by simp [loop])

theorem withoutLoops_cons_of_noLoop (noLoop : edge.isEpsilonLoop = false) :
    withoutLoops (edge :: path) = edge :: withoutLoops path :=
  List.filter_cons_of_pos (by simp [noLoop])

theorem Joins.withoutLoops (joins : Joins start path stop) :
    Joins start (withoutLoops path) stop := by
  induction path generalizing start with
  | nil => exact joins
  | cons edge path induction =>
      obtain ⟨rfl, rest⟩ := joins
      cases loop : edge.isEpsilonLoop with
      | true =>
          rw [withoutLoops_cons_of_loop loop, (Edge.isEpsilonLoop_iff.mp loop).1]
          exact induction rest
      | false =>
          rw [withoutLoops_cons_of_noLoop loop]
          exact ⟨rfl, induction rest⟩

theorem filter_wordOf_withoutLoops (path : List Edge) :
    (wordOf (withoutLoops path)).filter (· != Grammar.epsilon) =
      (wordOf path).filter (· != Grammar.epsilon) := by
  induction path with
  | nil => rfl
  | cons edge path induction =>
      cases loop : edge.isEpsilonLoop with
      | true =>
          have epsilon := (Edge.isEpsilonLoop_iff.mp loop).2
          rw [withoutLoops_cons_of_loop loop, induction, wordOf_cons, epsilon]
          exact (List.filter_cons_of_neg (by simp)).symm
      | false =>
          rw [withoutLoops_cons_of_noLoop loop, wordOf_cons, wordOf_cons, List.filter_cons,
            List.filter_cons, induction]

end Loops

/-! ## Graphs of words -/

namespace Graph

variable {word : List Label} {edge : Edge}

end Graph

/-! ## Recognized words -/

namespace BracketLanguage

/-- The word is over epsilon, `normal` and known brackets, and the brackets of the family
match. -/
structure BalancedWord (family : BracketFamily) (own passing : List Nat) (word : List Label) :
    Prop where
  labels : ∀ label ∈ word, BalancedLabel family own passing label
  nested : family.WellNested (family.only word)

section Words

variable {family : BracketFamily} {own passing : List Nat} {word other : List Label}

private theorem balancedWord_filter_iff :
    BalancedWord family own passing (word.filter (· != Grammar.epsilon)) ↔
      BalancedWord family own passing word := by
  constructor
  · rintro ⟨labels, nested⟩
    rw [only_filter_ne_epsilon] at nested
    refine ⟨fun label member => ?_, nested⟩
    by_cases epsilon : label = Grammar.epsilon
    · exact .inl epsilon
    · exact labels label (List.mem_filter.mpr ⟨member, by simpa using epsilon⟩)
  · rintro ⟨labels, nested⟩
    rw [← only_filter_ne_epsilon] at nested
    exact ⟨fun label member => labels label (List.mem_filter.mp member).1, nested⟩

theorem balancedWord_congr
    (same : word.filter (· != Grammar.epsilon) = other.filter (· != Grammar.epsilon)) :
    BalancedWord family own passing word ↔ BalancedWord family own passing other := by
  rw [← balancedWord_filter_iff, same, balancedWord_filter_iff]

end Words

section Solve

variable {family : BracketFamily} {own passing : List Nat}
  (ownBounded : ∀ id ∈ own, id < Text.halfWordBound)
  (passingBounded : ∀ id ∈ passing, id < Text.halfWordBound)

include ownBounded passingBounded

end Solve

end BracketLanguage

end GrammarReach
