import GrammarReach.Analysis.Family
import GrammarReach.Proofs.Bracket.WrapperGrammar
import GrammarReach.Proofs.Graph.Indices

/-!
# Balanced walks

The walks that an analysis is after consist of labelled edges with canonical
labels, and the brackets of both families are well nested along them.  Each
grammar only knows a weaker condition, for one family or for the ends.
-/

namespace GrammarReach

/-- A walk of labelled edges whose labels are `normal` or canonical brackets. -/
structure CanonicalWalk (graph : Graph) (span : Span) (path : List Edge) : Prop where
  joins : Joins span.start path span.stop
  inside : ∀ edge ∈ path, edge ∈ graph.labelledEdges
  canonical : ∀ label ∈ wordOf path, CanonicalLabel label

/-- A canonical walk along which the brackets of one family are well nested. -/
structure NestedWalk (family : BracketFamily) (graph : Graph) (span : Span)
    (path : List Edge) : Prop extends CanonicalWalk graph span path where
  nested : family.WellNested (family.only (wordOf path))

/-- A canonical walk that starts with the opening and ends with the closing wrapper
bracket. -/
structure WrappedWalk (graph : Graph) (span : Span) (path : List Edge) : Prop
    extends CanonicalWalk graph span path where
  wrapped : BracketLanguage.Wrapped (wordOf path)

/-- A walk that an analysis has to find: both families are well nested, and a value
flow runs from the opening to the closing wrapper bracket. -/
structure BalancedWalk (analysis : AnalysisFamily) (graph : Graph) (span : Span)
    (path : List Edge) : Prop extends CanonicalWalk graph span path where
  nested : ∀ family : BracketFamily, family.WellNested (family.only (wordOf path))
  flow : analysis = .valueFlow →
    (wordOf path).head? = some BracketLanguage.wrapperOpen ∧
      (wordOf path).getLast? = some BracketLanguage.wrapperClose

namespace BracketLanguage

theorem wrapped_iff {word : List Label} :
    Wrapped word ↔ word.head? = some wrapperOpen ∧ word.getLast? = some wrapperClose := by
  constructor
  · rintro ⟨inner, rfl⟩
    refine ⟨rfl, ?_⟩
    rw [← List.cons_append, List.getLast?_concat]
  · rintro ⟨first, last⟩
    cases word with
    | nil => cases first
    | cons label rest =>
        cases first
        rcases List.eq_nil_or_concat rest with rfl | ⟨inner, final, rfl⟩
        · exact absurd (Option.some.inj last) (by decide)
        · rw [List.concat_eq_append, ← List.cons_append, List.getLast?_concat] at last
          cases last
          rw [List.concat_eq_append]
          exact ⟨inner, rfl⟩

end BracketLanguage

section Walks

variable {analysis : AnalysisFamily} {graph other : Graph} {span : Span} {path : List Edge}

theorem CanonicalWalk.within (walk : CanonicalWalk graph span path)
    (inside : ∀ edge ∈ path, edge ∈ other.labelledEdges) : CanonicalWalk other span path :=
  ⟨walk.joins, inside, walk.canonical⟩

theorem BalancedWalk.within (walk : BalancedWalk analysis graph span path)
    (inside : ∀ edge ∈ path, edge ∈ other.labelledEdges) :
    BalancedWalk analysis other span path :=
  ⟨walk.toCanonicalWalk.within inside, walk.nested, walk.flow⟩

theorem NestedWalk.mono {family : BracketFamily} (walk : NestedWalk family graph span path)
    (sub : ∀ edge ∈ graph.labelledEdges, edge ∈ other.labelledEdges) :
    NestedWalk family other span path :=
  ⟨walk.toCanonicalWalk.within fun edge member => sub edge (walk.inside edge member),
    walk.nested⟩

theorem WrappedWalk.mono (walk : WrappedWalk graph span path)
    (sub : ∀ edge ∈ graph.labelledEdges, edge ∈ other.labelledEdges) :
    WrappedWalk other span path :=
  ⟨walk.toCanonicalWalk.within fun edge member => sub edge (walk.inside edge member),
    walk.wrapped⟩

theorem BalancedWalk.matched (walk : BalancedWalk analysis graph span path)
    (family : BracketFamily) : family.Matched (wordOf path) :=
  BracketFamily.wellNested_only_iff.mp (walk.nested family)

theorem BalancedWalk.wrapped (walk : BalancedWalk .valueFlow graph span path) :
    BracketLanguage.Wrapped (wordOf path) :=
  BracketLanguage.wrapped_iff.mpr (walk.flow rfl)

theorem CanonicalWalk.mem_edges (walk : CanonicalWalk graph span path) {edge : Edge}
    (member : edge ∈ path) : edge ∈ graph.edges :=
  (Graph.mem_labelledEdges.mp (walk.inside edge member)).1

theorem CanonicalWalk.ne_nil (walk : CanonicalWalk graph span path)
    (irreflexive : span.isReflexive = false) : path ≠ [] :=
  walk.joins.ne_nil (Span.irreflexive_iff.mp irreflexive)

theorem CanonicalWalk.start_mem (walk : CanonicalWalk graph span path)
    (built : graph.Built) (some : path ≠ []) : span.start ∈ graph.vertices := by
  cases path with
  | nil => exact absurd rfl some
  | cons edge path =>
      rw [← walk.joins.1]
      exact built.closed.source_mem edge (walk.mem_edges (by simp))

theorem CanonicalWalk.stop_mem (walk : CanonicalWalk graph span path)
    (built : graph.Built) (some : path ≠ []) : span.stop ∈ graph.vertices := by
  rcases List.eq_nil_or_concat path with rfl | ⟨before, edge, rfl⟩
  · exact absurd rfl some
  · rw [List.concat_eq_append] at walk
    obtain ⟨_, _, _, stops⟩ := Joins.append_iff.mp walk.joins
    rw [← stops]
    exact built.closed.target_mem edge (walk.mem_edges (by simp))

end Walks

/-! ## Partners -/

/-- In a matched word an opening bracket occurs together with its partner. -/
theorem BracketFamily.Matched.partners {family : BracketFamily} {word : List Label}
    (matched : family.Matched word) {id : Nat} (below : id < Text.halfWordBound)
    (occurs : family.openLabel id ∈ word ∨ family.closeLabel id ∈ word) :
    family.openLabel id ∈ word ∧ family.closeLabel id ∈ word := by
  induction matched with
  | nil => simp at occurs
  | @pass label rest foreign _ induction =>
      have owned : ∀ bracket, bracket = family.openLabel id ∨ bracket = family.closeLabel id →
          label ≠ bracket := by
        rintro _ (rfl | rfl) rfl
        · simp [BracketFamily.owns_openLabel, below] at foreign
        · simp [BracketFamily.owns_closeLabel, below] at foreign
      have inRest := induction (occurs.imp
        (fun member => (List.mem_cons.mp member).resolve_left
          fun same => owned _ (Or.inl rfl) same.symm)
        (fun member => (List.mem_cons.mp member).resolve_left
          fun same => owned _ (Or.inr rfl) same.symm))
      exact ⟨.tail _ inRest.1, .tail _ inRest.2⟩
  | @wrap other inner rest otherBelow _ _ innerInduction restInduction =>
      by_cases same : other = id
      · subst same
        simp
      · have different : family.openLabel id ≠ family.openLabel other ∧
            family.openLabel id ≠ family.closeLabel other ∧
            family.closeLabel id ≠ family.openLabel other ∧
            family.closeLabel id ≠ family.closeLabel other := by
          refine ⟨fun h => ?_, fun h => ?_, fun h => ?_, fun h => ?_⟩ <;>
            simpa [below, otherBelow, Ne.symm same] using congrArg BracketLabel.read h
        simp only [List.mem_cons, List.mem_append, different, false_or] at occurs ⊢
        by_cases inside : family.openLabel id ∈ inner ∨ family.closeLabel id ∈ inner
        · obtain ⟨opened, closed⟩ := innerInduction inside
          exact ⟨Or.inl opened, Or.inl closed⟩
        · obtain ⟨notOpened, notClosed⟩ := not_or.mp inside
          obtain ⟨opened, closed⟩ := restInduction
            (occurs.imp (fun h => h.resolve_left notOpened) fun h => h.resolve_left notClosed)
          exact ⟨Or.inr opened, Or.inr closed⟩

/-! ## Leaving epsilon loops out -/

/-- The edges of a walk without the epsilon edges. -/
def withoutEpsilon (path : List Edge) : List Edge :=
  path.filter fun edge => !edge.isEpsilon

theorem wordOf_withoutEpsilon (path : List Edge) :
    wordOf (withoutEpsilon path) = (wordOf path).filter (· != Grammar.epsilon) := by
  induction path with
  | nil => rfl
  | cons edge path induction =>
      by_cases epsilon : edge.label = Grammar.epsilon
      · simpa [withoutEpsilon, Edge.isEpsilon, epsilon] using induction
      · simpa [withoutEpsilon, Edge.isEpsilon, epsilon] using induction

theorem only_filter_ne_epsilon (family : BracketFamily) (word : List Label) :
    family.only (word.filter (· != Grammar.epsilon)) = family.only word := by
  rw [BracketFamily.only, List.filter_filter]
  apply List.filter_congr
  intro label _
  by_cases epsilon : label = Grammar.epsilon
  · simp [epsilon]
  · simp [epsilon]

/-- Epsilon loops can be left out of a walk. -/
theorem joins_withoutEpsilon {graph : Graph} (loops : graph.LoopsOnly)
    {start stop : Vertex} {path : List Edge} (joins : Joins start path stop)
    (inside : ∀ edge ∈ path, edge ∈ graph.edges) :
    Joins start (withoutEpsilon path) stop := by
  induction path generalizing start with
  | nil => exact joins
  | cons edge path induction =>
      obtain ⟨rfl, rest⟩ := joins
      have restJoins := induction rest fun other member => inside other (by simp [member])
      by_cases epsilon : edge.isEpsilon = true
      · rw [withoutEpsilon, List.filter_cons_of_neg (by simp [epsilon]),
          loops edge (inside edge (by simp)) epsilon]
        exact restJoins
      · rw [withoutEpsilon, List.filter_cons_of_pos (by simpa using epsilon)]
        exact ⟨rfl, restJoins⟩

theorem mem_labelledEdges_of_withoutEpsilon {graph : Graph} {path : List Edge}
    (inside : ∀ edge ∈ path, edge ∈ graph.edges) {edge : Edge}
    (member : edge ∈ withoutEpsilon path) : edge ∈ graph.labelledEdges := by
  obtain ⟨onPath, labelled⟩ := List.mem_filter.mp member
  exact Graph.mem_labelledEdges.mpr ⟨inside edge onPath, by simpa using labelled⟩

theorem canonicalWalk_withoutEpsilon {graph : Graph} (loops : graph.LoopsOnly)
    {span : Span} {path : List Edge} (joins : Joins span.start path span.stop)
    (inside : ∀ edge ∈ path, edge ∈ graph.edges)
    (canonical : ∀ label ∈ wordOf path, CanonicalLabel label ∨ label = Grammar.epsilon) :
    CanonicalWalk graph span (withoutEpsilon path) where
  joins := joins_withoutEpsilon loops joins inside
  inside _ member := mem_labelledEdges_of_withoutEpsilon inside member
  canonical label member := by
    rw [wordOf_withoutEpsilon] at member
    obtain ⟨inWord, labelled⟩ := List.mem_filter.mp member
    exact (canonical label inWord).resolve_right (by simpa using labelled)

end GrammarReach
