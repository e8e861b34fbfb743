import GrammarReach.Proofs.Bracket.ComponentGraphs
import GrammarReach.Proofs.Bracket.ParityAnswers

/-!
# Accepted walks

What the grammar of a family derives over a component that knows its brackets are the
canonical walks that the chosen mode accepts: the family is well nested, and in augmented
mode the brackets of the other family cancel.  The edges that a derivation uses lie on
such a walk, and the edges of such a walk are used by a derivation.
-/

namespace GrammarReach

namespace BracketFamily

theorem bracketsOf_filter_ne_epsilon (family : BracketFamily) (word : List Label) :
    family.bracketsOf (word.filter (· != Grammar.epsilon)) = family.bracketsOf word := by
  rw [bracketsOf, List.filterMap_filter]
  apply List.filterMap_congr
  intro label _
  by_cases epsilon : label = Grammar.epsilon
  · simp [epsilon, bracketOf?_of_foreign (family.owns_epsilon)]
  · simp [epsilon]

end BracketFamily

namespace GrammarChoice

/-- The number of classes that the parity grammar really counts. -/
def classCount (choice : GrammarChoice) : Nat :=
  max choice.parityClasses 1

/-- The words of the grammar of a family over some ids: the family is well nested, and in
augmented mode the brackets of the other family cancel for a machine word. -/
structure Accepts (choice : GrammarChoice) (family : BracketFamily) (ids : BracketIds)
    (word : List Label) : Prop where
  nested : family.WellNested (family.only word)
  cancels : choice.mode = .augmented →
    CancelsInWord (ids.ofFamily family.other) choice.classCount
      (family.other.bracketsOf word)

theorem Accepts.matched {choice : GrammarChoice} {family : BracketFamily} {ids : BracketIds}
    {word : List Label} (accepts : choice.Accepts family ids word) : family.Matched word :=
  BracketFamily.wellNested_only_iff.mp accepts.nested

theorem Accepts.filter_ne_epsilon {choice : GrammarChoice} {family : BracketFamily}
    {ids : BracketIds} {word : List Label} (accepts : choice.Accepts family ids word) :
    choice.Accepts family ids (word.filter (· != Grammar.epsilon)) where
  nested := by
    rw [only_filter_ne_epsilon]
    exact accepts.nested
  cancels augmented := by
    rw [BracketFamily.bracketsOf_filter_ne_epsilon]
    exact accepts.cancels augmented

section Ids

variable {choice : GrammarChoice} {family : BracketFamily} {ids : BracketIds}
  {word : List Label}

/-- With fewer classes than a machine word has digits, passing brackets cancel for the word
when they cancel. -/
theorem WithinWord.cancelsInWord_iff (within : choice.WithinWord)
    (augmented : choice.mode = .augmented) {known : List Nat} {brackets : List PassingBracket} :
    CancelsInWord known choice.classCount brackets ↔
      Cancels (residueClass known choice.classCount) brackets := by
  have few : choice.classCount < Text.wordBits := Nat.max_lt.mpr ⟨within augmented, by decide⟩
  exact GrammarReach.cancelsInWord_iff (Nat.le_max_right _ _) few

/-- Other ids only matter for the classes of the passing brackets. -/
private theorem Accepts.exchange {few : Prop} (within : choice.WithinWord)
    (accepts : choice.Accepts family ids word)
    (cases : choice.mode = .augmented → choice.parityClasses ≤ 1 ∨ few) {other : BracketIds}
    (exchanged : few →
      Cancels (residueClass (ids.ofFamily family.other) choice.classCount)
        (family.other.bracketsOf word) →
      Cancels (residueClass (other.ofFamily family.other) choice.classCount)
        (family.other.bracketsOf word)) :
    choice.Accepts family other word := by
  refine ⟨accepts.nested, fun augmented => ?_⟩
  have cancels := (within.cancelsInWord_iff augmented).mp (accepts.cancels augmented)
  rw [within.cancelsInWord_iff augmented]
  rcases cases augmented with one | few
  · unfold classCount at cancels ⊢
    rw [Nat.max_eq_right one] at cancels ⊢
    exact cancels.residue_one _
  · exact exchanged few cancels

private theorem id_mem_of_covers (covered : ∀ label ∈ word, ids.Covers label)
    (bounded : ids.Bounded) :
    ∀ bracket ∈ family.other.bracketsOf word, bracket.id ∈ ids.ofFamily family.other :=
  fun _ member => BracketLanguage.id_mem_of_covered bounded
    (fun label inWord => .inl (covered label inWord)) member

/-- With one class, or with a class for each id, it does not matter which ids there are. -/
theorem Accepts.reclass (within : choice.WithinWord) (accepts : choice.Accepts family ids word)
    (covered : ∀ label ∈ word, ids.Covers label) (bounded : ids.Bounded)
    (few : choice.mode = .augmented → choice.parityClasses ≤ 1 ∨
      (ids.ofFamily family.other).length ≤ choice.parityClasses) (other : BracketIds) :
    choice.Accepts family other word := by
  have known := @id_mem_of_covers family ids word covered bounded
  refine accepts.exchange within few fun few cancels => ?_
  exact cancels.reclass_of_few known (few.trans (Nat.le_max_left _ _)) _

/-- With one class, or with at most one more id than there are classes, further ids do not
matter. -/
theorem Accepts.widen (within : choice.WithinWord) (accepts : choice.Accepts family ids word)
    (covered : ∀ label ∈ word, ids.Covers label) (bounded : ids.Bounded)
    (distinct : (ids.ofFamily family.other).Nodup) {other : BracketIds}
    (sub : ∀ id ∈ ids.ofFamily family.other, id ∈ other.ofFamily family.other)
    (few : choice.mode = .augmented → choice.parityClasses ≤ 1 ∨
      (other.ofFamily family.other).length ≤ choice.parityClasses + 1) :
    choice.Accepts family other word := by
  have known := @id_mem_of_covers family ids word covered bounded
  refine accepts.exchange within few fun few cancels => ?_
  exact cancels.widen known distinct sub
    (few.trans (Nat.add_le_add_right (Nat.le_max_left _ _) 1))

end Ids

end GrammarChoice

/-- A canonical walk whose word is accepted. -/
structure AcceptedWalk (choice : GrammarChoice) (family : BracketFamily)
    (component : BracketComponent) (span : Span) (path : List Edge) : Prop
    extends CanonicalWalk component.graph span path where
  accepted : choice.Accepts family component.ids (wordOf path)

section Grammars

open BracketLanguage

variable {choice : GrammarChoice} {family : BracketFamily}

section Ids

variable {ids : BracketIds} (bounded : ids.Bounded) {graph : Graph} {span : Span}

include bounded

/-- A walk with an accepted word lies behind every derivation of the grammar. -/
theorem exists_walk_of_derives_balancing
    (distinct : (ids.ofFamily family.other).Nodup) {used : List Edge}
    (derives : (choice.balancing family ids).Derives graph Grammar.startName [span] used) :
    ∃ path, Joins span.start path span.stop ∧ (∀ edge ∈ path, edge ∈ graph.edges) ∧
      (∀ edge ∈ used, edge ∈ path) ∧ MatchedOver ids (· = family) (wordOf path) ∧
      choice.Accepts family ids (wordOf path) := by
  unfold GrammarChoice.balancing at derives
  cases mode : choice.mode with
  | classic =>
      rw [mode] at derives
      obtain ⟨path, joins, inside, uses, word⟩ :=
        (matching_balanced family ids).walk_of_derives bounded derives
      have nested := (word.matched family rfl).wellNested_only
      exact ⟨path, joins, inside, uses, word, nested, fun augmented => by simp [mode] at augmented⟩
  | augmented =>
      rw [mode] at derives
      obtain ⟨path, joins, inside, uses, word, cancels⟩ :=
        exists_walk_of_derives_parity bounded distinct derives
      have nested := (word.matched family rfl).wellNested_only
      exact ⟨path, joins, inside, uses, word, nested, fun _ => cancels⟩

/-- A walk from a vertex with an accepted word over known labels is derived with all its
edges. -/
theorem derives_balancing_of_walk (distinct : (ids.ofFamily family.other).Nodup)
    (built : graph.Built) {path : List Edge} (joins : Joins span.start path span.stop)
    (inside : ∀ edge ∈ path, edge ∈ graph.edges) (start : span.start ∈ graph.vertices)
    (covered : ∀ label ∈ wordOf path, ids.Covers label)
    (accepts : choice.Accepts family ids (wordOf path)) :
    ∃ used, (choice.balancing family ids).Derives graph Grammar.startName [span] used ∧
      ∀ edge ∈ path, edge ∈ used := by
  unfold GrammarChoice.balancing
  cases mode : choice.mode with
  | classic =>
      exact derives_of_matched built (derivesMatched_balanced family ids bounded)
        accepts.matched joins inside start covered
  | augmented =>
      refine derives_parity_of_walk bounded distinct built joins inside start
        ⟨?_, fun label member => Or.inl (covered label member)⟩ (accepts.cancels mode)
      rintro _ rfl
      exact accepts.matched

end Ids

variable {component : BracketComponent} {span : Span}

theorem exists_acceptedWalk_of_derives (exact : component.Exact) {used : List Edge}
    (derives : (choice.balancing family component.ids).Derives component.graph
      Grammar.startName [span] used) :
    ∃ path, AcceptedWalk choice family component span path ∧
      ∀ edge ∈ used, edge.isEpsilon = false → edge ∈ path := by
  obtain ⟨path, joins, inside, uses, word, accepts⟩ :=
    exists_walk_of_derives_balancing exact.bounded (exact.distinct family.other) derives
  refine ⟨withoutEpsilon path, ⟨?_, ?_⟩, fun edge inUsed labelled => ?_⟩
  · apply canonicalWalk_withoutEpsilon exact.loops joins inside
    intro label member
    exact (word.covered label member).imp_left fun covers => covers.canonical exact.bounded
  · rw [wordOf_withoutEpsilon]
    exact accepts.filter_ne_epsilon
  · exact List.mem_filter.mpr ⟨uses edge inUsed, by simp [labelled]⟩

theorem derives_of_acceptedWalk (exact : component.Exact) {path : List Edge}
    (walk : AcceptedWalk choice family component span path)
    (irreflexive : span.isReflexive = false) :
    ∃ used, (choice.balancing family component.ids).Derives component.graph
      Grammar.startName [span] used ∧ ∀ edge ∈ path, edge ∈ used := by
  have covered : ∀ label ∈ wordOf path, component.ids.Covers label := by
    intro label member
    obtain ⟨edge, onPath, rfl⟩ := List.mem_map.mp member
    exact exact.covers edge (walk.inside edge onPath) (walk.canonical _ member)
  have start : span.start ∈ component.graph.vertices :=
    walk.start_mem exact.built (walk.ne_nil irreflexive)
  exact derives_balancing_of_walk exact.bounded (exact.distinct family.other) exact.built
    walk.joins (fun _ => walk.mem_edges) start covered walk.accepted

end Grammars

end GrammarReach
