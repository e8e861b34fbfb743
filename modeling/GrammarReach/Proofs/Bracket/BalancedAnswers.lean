import GrammarReach.Proofs.Bracket.MatchingGrammars

/-!
# Answers of the balanced grammar

Solving the balanced grammar of a family over a graph ends, and the answers are the
spans of walks with at least one edge in which the brackets of the family match.
-/

namespace GrammarReach

namespace BracketLanguage

/-- The label is epsilon, `normal`, a bracket of the other family with a passing id or
one of the family with an own id. -/
def BalancedLabel (family : BracketFamily) (own passing : List Nat) (label : Label) : Prop :=
  label = Grammar.epsilon ∨ label = normalLabel ∨
    (∃ id ∈ passing, label = family.other.openLabel id ∨ label = family.other.closeLabel id) ∨
    ∃ id ∈ own, label = family.openLabel id ∨ label = family.closeLabel id

/-- The ids of a family and of the other one. -/
def idsOf (family : BracketFamily) (own passing : List Nat) : BracketIds :=
  match family with
  | .parenthesis => ⟨own, passing⟩
  | .bracket => ⟨passing, own⟩

section Labels

variable {family : BracketFamily} {own passing : List Nat}

@[simp] theorem ofFamily_idsOf :
    (idsOf family own passing).ofFamily family = own := by
  cases family with
  | parenthesis => rfl
  | bracket => rfl

@[simp] theorem ofFamily_other_idsOf :
    (idsOf family own passing).ofFamily family.other = passing := by
  cases family with
  | parenthesis => rfl
  | bracket => rfl

theorem bounded_idsOf (ownBounded : ∀ id ∈ own, id < Text.halfWordBound)
    (passingBounded : ∀ id ∈ passing, id < Text.halfWordBound) :
    (idsOf family own passing).Bounded := by
  intro owner id member
  rcases family.eq_or_eq_other owner with rfl | rfl
  · exact ownBounded id (by simpa using member)
  · exact passingBounded id (by simpa using member)

theorem balancedLabel_iff {label : Label} :
    BalancedLabel family own passing label ↔
      (idsOf family own passing).Covers label ∨ label = Grammar.epsilon := by
  constructor
  · rintro (epsilon | normal | ⟨id, member, role⟩ | ⟨id, member, role⟩)
    · exact .inr epsilon
    · exact .inl (.inl normal)
    · exact .inl (.inr ⟨family.other, id, by simpa using member, role⟩)
    · exact .inl (.inr ⟨family, id, by simpa using member, role⟩)
  · rintro ((normal | ⟨owner, id, member, role⟩) | epsilon)
    · exact .inr (.inl normal)
    · rcases family.eq_or_eq_other owner with rfl | rfl
      · exact .inr (.inr (.inr ⟨id, by simpa using member, role⟩))
      · exact .inr (.inr (.inl ⟨id, by simpa using member, role⟩))
    · exact .inl epsilon

theorem DerivesMatched.allowEpsilon {grammar : Grammar} {allowed : Label → Prop}
    {name : Nonterminal} (rules : DerivesMatched grammar family allowed fun _ => name) :
    DerivesMatched grammar family (fun label => allowed label ∨ label = Grammar.epsilon)
      fun _ => name where
  empty := rules.empty
  letter label isAllowed foreign := by
    rcases isAllowed with isAllowed | rfl
    · exact rules.letter label isAllowed foreign
    · exact rules.empty
  sequence _ _ _ := rules.sequence [] [] (by simp)
  wrap id _ isAllowed _ :=
    rules.wrap id [] (isAllowed.resolve_right (family.openLabel_ne_epsilon id)) (by simp)
  opener id isAllowed :=
    rules.opener id (isAllowed.resolve_right (family.openLabel_ne_epsilon id))
  pair id isAllowed :=
    rules.pair id (isAllowed.resolve_right (family.openLabel_ne_epsilon id))

end Labels

/-- A walk in the graph with at least one edge, over epsilon, `normal` and known brackets,
in which the brackets of the family match. -/
def BalancedPath (graph : Graph) (family : BracketFamily) (own passing : List Nat)
    (span : Span) (path : List Edge) : Prop :=
  path ≠ [] ∧ Joins span.start path span.stop ∧ (∀ edge ∈ path, edge ∈ graph.edges) ∧
    (∀ label ∈ wordOf path, BalancedLabel family own passing label) ∧
    family.WellNested (family.only (wordOf path))

section Solve

variable {graph : Graph} {family : BracketFamily} {own passing : List Nat} {span : Span}

theorem BalancedPath.start_mem (built : graph.Built) {path : List Edge}
    (balanced : BalancedPath graph family own passing span path) :
    span.start ∈ graph.vertices := by
  obtain ⟨nonempty, joins, inside, _⟩ := balanced
  exact joins.start_mem built nonempty inside

theorem BalancedPath.matchedOver {path : List Edge}
    (balanced : BalancedPath graph family own passing span path) :
    MatchedOver (idsOf family own passing) (· = family) (wordOf path) := by
  obtain ⟨_, _, _, labels, nested⟩ := balanced
  refine ⟨?_, fun label member => balancedLabel_iff.mp (labels label member)⟩
  rintro _ rfl
  exact BracketFamily.wellNested_only_iff.mp nested

private theorem derives_of_balancedPath (built : graph.Built)
    (bounded : (idsOf family own passing).Bounded) {path : List Edge}
    (balanced : BalancedPath graph family own passing span path) :
    ∃ used, (balancedOver family (idsOf family own passing)).Derives graph
      Grammar.startName [span] used := by
  have word := balanced.matchedOver
  obtain ⟨used, derives, _⟩ := derives_of_matched built
    (derivesMatched_balanced family _ bounded).allowEpsilon (word.matched family rfl)
    balanced.2.1 balanced.2.2.1 (balanced.start_mem built) word.covered
  exact ⟨used, derives⟩

/-- The walk behind an answer is a balanced path, after the epsilon loop is put where there
is no edge. -/
theorem exists_balancedPath_of_walk (built : graph.Built) {grammar : Grammar} {used : List Edge}
    (derives : grammar.Derives graph Grammar.startName [span] used) {path : List Edge}
    (joins : Joins span.start path span.stop) (inside : ∀ edge ∈ path, edge ∈ graph.edges)
    (matched : MatchedOver (idsOf family own passing) (· = family) (wordOf path)) :
    ∃ longer, BalancedPath graph family own passing span longer ∧
      (longer = path ∨ path = [] ∧ longer = [.loopAt span.start]) := by
  cases path with
  | nil =>
      have member := (Grammar.mem_leastClosed_iff_derives built).mpr ⟨used, derives⟩
      have spans := Grammar.spans_of_mem_leastClosed built.closed member span (by simp)
      have loop := built.closed.loop_mem span.start spans.1
      refine ⟨[.loopAt span.start], ⟨by simp, ⟨rfl, joins⟩, by simpa using loop, ?_, ?_⟩,
        Or.inr ⟨rfl, rfl⟩⟩
      · simp [BalancedLabel, Edge.loopAt]
      · simpa [BracketFamily.only, Edge.loopAt] using BracketFamily.WellNested.nil
  | cons edge rest =>
      refine ⟨edge :: rest, ⟨by simp, joins, inside, fun label member => ?_, ?_⟩, Or.inl rfl⟩
      · exact balancedLabel_iff.mpr (matched.covered label member)
      · exact BracketFamily.wellNested_only_iff.mpr (matched.matched family rfl)

private theorem exists_balancedPath_of_derives (built : graph.Built)
    (bounded : (idsOf family own passing).Bounded) {used : List Edge}
    (derives : (balancedOver family (idsOf family own passing)).Derives graph
      Grammar.startName [span] used) :
    ∃ path, BalancedPath graph family own passing span path := by
  obtain ⟨path, joins, inside, _, matched⟩ :=
    (matching_balanced family (idsOf family own passing)).walk_of_derives bounded derives
  obtain ⟨longer, balanced, _⟩ :=
    exists_balancedPath_of_walk built derives joins inside matched
  exact ⟨longer, balanced⟩

/-- Solving the balanced grammar ends and answers with the spans of balanced paths. -/
theorem mem_spans_solve_balanced (built : graph.Built)
    (ownBounded : ∀ id ∈ own, id < Text.halfWordBound)
    (passingBounded : ∀ id ∈ passing, id < Text.halfWordBound) (options : SolveOptions) :
    SolveEnds graph (balanced family own family.other passing) options ∧
      ∀ span, span ∈ (solve graph (balanced family own family.other passing) options).spans ↔
        ∃ path, BalancedPath graph family own passing span path := by
  have bounded : (idsOf family own passing).Bounded :=
    bounded_idsOf ownBounded passingBounded
  have grammar : balanced family own family.other passing =
      balancedOver family (idsOf family own passing) := by
    rw [balancedOver, ofFamily_idsOf, ofFamily_other_idsOf]
  have arities := (matching_balanced family (idsOf family own passing)).shape.hasArities
  rw [grammar]
  refine ⟨arities.solveEnds built options, fun span => ?_⟩
  rw [mem_spans_solve built arities]
  constructor
  · rintro ⟨used, derives⟩
    exact exists_balancedPath_of_derives built bounded derives
  · rintro ⟨path, isBalanced⟩
    exact derives_of_balancedPath built bounded isBalanced

end Solve

/-- A cycle through a matched pair of parentheses with a bracket loop inside, and a closing
parenthesis that does not match. -/
def bracketCycle : Graph :=
  .ofEdges [⟨0, 1, "op--0"⟩, ⟨1, 1, "ob--2"⟩, ⟨1, 2, "cp--0"⟩, ⟨2, 0, "normal"⟩,
    ⟨1, 3, "cp--1"⟩]

theorem mem_spans_solve_bracketCycle :
    bracketCycle.Built ∧ (∀ id ∈ [0, 1], id < Text.halfWordBound) ∧
      (∀ id ∈ [2], id < Text.halfWordBound) ∧
      SolveEnds bracketCycle (balanced .parenthesis [0, 1] .bracket [2]) {} ∧
      (∃ path, BalancedPath bracketCycle .parenthesis [0, 1] [2] ⟨0, 2⟩ path) ∧
      ¬ ∃ path, BalancedPath bracketCycle .parenthesis [0, 1] [2] ⟨0, 3⟩ path := by
  have built : bracketCycle.Built := Graph.built_ofEdges _
  have own : ∀ id ∈ [0, 1], id < Text.halfWordBound := by decide
  have passing : ∀ id ∈ [2], id < Text.halfWordBound := by decide
  obtain ⟨ends, answers⟩ :=
    @mem_spans_solve_balanced bracketCycle .parenthesis [0, 1] [2] built own passing {}
  refine ⟨built, own, passing, ends, (answers ⟨0, 2⟩).mp (by decide +kernel), ?_⟩
  rw [← answers ⟨0, 3⟩]
  decide +kernel

end BracketLanguage

end GrammarReach
