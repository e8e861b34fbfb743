import GrammarReach.Proofs.Bracket.ComponentGraphs

/-!
# Answers of the interleaved grammar

In an interleaved word the brackets of both families match in one stack.  Over a component
that knows its brackets the interleaved grammar answers exactly the spans of walks with
such a word.
-/

namespace GrammarReach

/-- The words in which both families match in one stack. -/
inductive Interleaved : List Label → Prop where
  | normal : Interleaved [normalLabel]
  | append {left right : List Label} :
      Interleaved left → Interleaved right → Interleaved (left ++ right)
  | pair (family : BracketFamily) {id : Nat} : id < Text.halfWordBound →
      Interleaved [family.openLabel id, family.closeLabel id]
  | wrap (family : BracketFamily) {id : Nat} {inner : List Label} :
      id < Text.halfWordBound → Interleaved inner →
      Interleaved (family.openLabel id :: (inner ++ [family.closeLabel id]))

namespace Interleaved

variable {word : List Label}

theorem canonical (interleaved : Interleaved word) : ∀ label ∈ word, CanonicalLabel label := by
  induction interleaved with
  | normal =>
      intro label member
      rw [List.mem_singleton.mp member]
      exact .normal
  | append _ _ leftInduction rightInduction =>
      exact fun label member => (List.mem_append.mp member).elim (leftInduction label)
        (rightInduction label)
  | pair family below =>
      intro label member
      simp only [List.mem_cons, List.not_mem_nil, or_false] at member
      rcases member with rfl | rfl
      · exact .opening family below
      · exact .closing family below
  | wrap family below _ induction =>
      intro label member
      simp only [List.mem_cons, List.mem_append, List.not_mem_nil, or_false] at member
      rcases member with rfl | inner | rfl
      · exact .opening family below
      · exact induction label inner
      · exact .closing family below

private theorem matched_wrap (family owner : BracketFamily) {id : Nat} {inner : List Label}
    (below : id < Text.halfWordBound) (matched : family.Matched inner) :
    family.Matched (owner.openLabel id :: (inner ++ [owner.closeLabel id])) := by
  by_cases same : owner = family
  · subst same
    exact matched.enclose below
  · have opens : family.owns (owner.openLabel id) = false := by
      simp [BracketFamily.owns_openLabel, same]
    have closes : family.owns (owner.closeLabel id) = false := by
      simp [BracketFamily.owns_closeLabel, same]
    exact .pass opens (matched.append (.pass closes .nil))

theorem matched (interleaved : Interleaved word) (family : BracketFamily) :
    family.Matched word := by
  induction interleaved with
  | normal => exact .pass (BracketFamily.owns_normalLabel family) .nil
  | append _ _ leftInduction rightInduction => exact leftInduction.append rightInduction
  | pair owner below => exact matched_wrap family owner below .nil
  | wrap owner below _ induction => exact matched_wrap family owner below induction

end Interleaved

/-- A walk of labelled edges with an interleaved word. -/
structure InterleavedWalk (graph : Graph) (span : Span) (path : List Edge) : Prop where
  joins : Joins span.start path span.stop
  inside : ∀ edge ∈ path, edge ∈ graph.labelledEdges
  interleaved : Interleaved (wordOf path)

section Walks

variable {graph other : Graph} {span : Span} {path : List Edge}

theorem InterleavedWalk.within (walk : InterleavedWalk graph span path)
    (inside : ∀ edge ∈ path, edge ∈ other.labelledEdges) : InterleavedWalk other span path :=
  ⟨walk.joins, inside, walk.interleaved⟩

theorem InterleavedWalk.balanced (walk : InterleavedWalk graph span path) :
    BalancedWalk .taint graph span path where
  joins := walk.joins
  inside := walk.inside
  canonical := walk.interleaved.canonical
  nested family := (walk.interleaved.matched family).wellNested_only
  flow isFlow := by cases isFlow

end Walks

namespace BracketLanguage

/-! ## Words of the grammar -/

section Words

variable {ids : BracketIds}

/-- Without epsilon the word is empty or interleaved. -/
private def InterleavedOrEmpty (word : List Label) : Prop :=
  word.filter (· != Grammar.epsilon) = [] ∨ Interleaved (word.filter (· != Grammar.epsilon))

private theorem InterleavedOrEmpty.append {left right : List Label}
    (before : InterleavedOrEmpty left) (behind : InterleavedOrEmpty right) :
    InterleavedOrEmpty (left ++ right) := by
  unfold InterleavedOrEmpty at before behind ⊢
  rw [List.filter_append]
  rcases before with empty | before
  · rwa [empty, List.nil_append]
  · rcases behind with empty | behind
    · rw [empty, List.append_nil]
      exact .inr before
    · exact .inr (before.append behind)

private theorem InterleavedOrEmpty.wrap {word : List Label} (inner : InterleavedOrEmpty word)
    (family : BracketFamily) {id : Nat} (below : id < Text.halfWordBound) :
    InterleavedOrEmpty (family.openLabel id :: (word ++ [family.closeLabel id])) := by
  have opens := (CanonicalLabel.opening family below).ne_epsilon
  have closes := (CanonicalLabel.closing family below).ne_epsilon
  unfold InterleavedOrEmpty at inner ⊢
  rw [List.filter_cons_of_pos (by simpa using opens), List.filter_append,
    List.filter_cons_of_pos (by simpa using closes), List.filter_nil]
  rcases inner with empty | inner
  · rw [empty]
    exact .inr (.pair family below)
  · exact .inr (.wrap family below inner)

private theorem respects_interleaved (bounded : ids.Bounded) :
    Respects (interleaved ids) (fun family id => id ∈ ids.ofFamily family)
      fun _ => InterleavedOrEmpty where
  letter rule member isWord := by
    obtain ⟨covers, foreign⟩ := (matching_interleaved ids).letter rule member isWord
    rcases covers with (isNormal | ⟨family, id, known, role⟩) | isEpsilon
    · rw [isNormal]
      exact .inr .normal
    · have notOwned := foreign family trivial
      have below := bounded family id known
      rcases role with same | same
      · simp [same, BracketFamily.owns_openLabel, below] at notOwned
      · simp [same, BracketFamily.owns_closeLabel, below] at notOwned
    · rw [isEpsilon]
      exact .inl rfl
  sequence _ _ _ before behind := before.append behind
  wrap _ _ _ known inner := inner.wrap _ (bounded _ _ known)
  rename _ _ word := word
  prepend rule member := by simp [(matching_interleaved ids).noPrepend] at member
  append rule member := by simp [(matching_interleaved ids).noAppend] at member

end Words

/-! ## The rules of the grammar -/

section Rules

variable {ids : BracketIds} {family : BracketFamily} {id : Nat}

private theorem empty_mem_interleaved :
    (⟨Grammar.startName, Grammar.epsilon⟩ : BasicRule) ∈ (interleaved ids).basic :=
  mem_basic_unions.mpr ⟨_, .tail _ (.tail _ (.head _)), .head _⟩

private theorem normal_mem_interleaved :
    (⟨Grammar.startName, normalLabel⟩ : BasicRule) ∈ (interleaved ids).basic :=
  mem_basic_unions.mpr ⟨_, .tail _ (.tail _ (.head _)), .tail _ (.head _)⟩

private theorem sequence_mem_interleaved :
    sequenceRule Grammar.startName Grammar.startName Grammar.startName ∈
      (interleaved ids).concatenate :=
  mem_concatenate_unions.mpr ⟨_, .tail _ (.tail _ (.tail _ (.head _))), .head _⟩

private theorem opener_mem_interleaved (known : id ∈ ids.ofFamily family) :
    openerRule family id ∈ (interleaved ids).basic := by
  cases family with
  | parenthesis => exact mem_basic_unions.mpr ⟨_, .head _, mem_basic_matchedPairs known⟩
  | bracket => exact mem_basic_unions.mpr ⟨_, .tail _ (.head _), mem_basic_matchedPairs known⟩

private theorem pair_mem_interleaved (known : id ∈ ids.ofFamily family) :
    pairRule family id ∈ (interleaved ids).insert := by
  cases family with
  | parenthesis => exact mem_insert_unions.mpr ⟨_, .head _, mem_insert_matchedPairs known⟩
  | bracket => exact mem_insert_unions.mpr ⟨_, .tail _ (.head _), mem_insert_matchedPairs known⟩

private theorem wrap_mem_interleaved (known : id ∈ ids.ofFamily family) :
    wrapRule Grammar.startName Grammar.startName family ∈ (interleaved ids).concatenate := by
  have member : wrapRule Grammar.startName Grammar.startName family ∈ (ifAny (ids.ofFamily family)
      (wrap Grammar.startName Grammar.startName family)).concatenate := by
    rw [ifAny_of_mem known]
    exact .head _
  cases family with
  | parenthesis =>
      exact mem_concatenate_unions.mpr ⟨_, .tail _ (.tail _ (.tail _ (.tail _ (.head _)))), member⟩
  | bracket =>
      exact mem_concatenate_unions.mpr
        ⟨_, .tail _ (.tail _ (.tail _ (.tail _ (.tail _ (.head _))))), member⟩

end Rules

/-! ## Walks behind answers -/

section Walks

variable {component : BracketComponent} {span : Span}

theorem exists_interleavedWalk (proper : component.Proper) {used : List Edge}
    (derives : (interleaved component.ids).Derives component.graph Grammar.startName [span] used)
    (irreflexive : span.isReflexive = false) :
    ∃ path, InterleavedWalk component.graph span path := by
  obtain ⟨path, joins, inside, _, word⟩ := wordWalk_of_derives
    (matching_interleaved component.ids).shape (respects_interleaved proper.bounded) (by decide)
    derives
  have kept := joins_withoutEpsilon proper.loops joins inside
  have some : withoutEpsilon path ≠ [] := kept.ne_nil (Span.irreflexive_iff.mp irreflexive)
  unfold InterleavedOrEmpty at word
  rw [← wordOf_withoutEpsilon] at word
  refine ⟨withoutEpsilon path, kept, fun edge member => ?_, word.resolve_left (by simpa [wordOf])⟩
  obtain ⟨onPath, labelled⟩ := List.mem_filter.mp member
  exact Graph.mem_labelledEdges.mpr ⟨inside edge onPath, by simpa using labelled⟩

private theorem derives_enclosed {graph : Graph} {ids : BracketIds} {family : BracketFamily}
    {id : Nat} (known : id ∈ ids.ofFamily family) {opened closed : Edge}
    (openedMember : opened ∈ graph.edges) (closedMember : closed ∈ graph.edges)
    (openedLabel : opened.label = family.openLabel id)
    (closedLabel : closed.label = family.closeLabel id)
    (reaches : (Components.ofGraph graph).reaches opened.target closed.source = true)
    (derives : ∃ used, (interleaved ids).Derives graph Grammar.startName
      [⟨opened.target, closed.source⟩] used) :
    ∃ used, (interleaved ids).Derives graph Grammar.startName
      [⟨opened.source, closed.target⟩] used := by
  obtain ⟨used, derives⟩ := derives
  exact ⟨_, derives_wrap (wrap_mem_interleaved known) (opener_mem_interleaved known)
    (pair_mem_interleaved known) openedMember closedMember openedLabel closedLabel reaches derives⟩

private theorem derives_of_interleaved {graph : Graph} (built : graph.Built) {ids : BracketIds}
    (bounded : ids.Bounded) {word : List Label} (isInterleaved : Interleaved word) :
    ∀ {start stop : Vertex} {path : List Edge}, wordOf path = word → Joins start path stop →
      (∀ edge ∈ path, edge ∈ graph.edges) → (∀ label ∈ word, ids.Covers label) →
      ∃ used, (interleaved ids).Derives graph Grammar.startName [⟨start, stop⟩] used := by
  induction isInterleaved with
  | normal =>
      intro start stop path spelled joins inside _
      obtain ⟨edge, rest, rfl, label, empty⟩ := List.map_eq_cons_iff.mp spelled
      cases List.map_eq_nil_iff.mp empty
      obtain ⟨rfl, rfl⟩ := joins
      exact ⟨_, .basic normal_mem_interleaved (inside edge (by simp)) label⟩
  | append _ _ leftInduction rightInduction =>
      intro start stop path spelled joins inside covered
      obtain ⟨before, behind, rfl, beforeSpelled, behindSpelled⟩ :=
        List.map_eq_append_iff.mp spelled
      obtain ⟨middle, beforeJoins, behindJoins⟩ := Joins.append_iff.mp joins
      obtain ⟨_, beforeDerives⟩ := leftInduction beforeSpelled beforeJoins
        (fun edge member => inside edge (by simp [member]))
        (fun label member => covered label (by simp [member]))
      obtain ⟨_, behindDerives⟩ := rightInduction behindSpelled behindJoins
        (fun edge member => inside edge (by simp [member]))
        (fun label member => covered label (by simp [member]))
      exact ⟨_, derives_sequence sequence_mem_interleaved beforeDerives behindDerives⟩
  | pair family below =>
      intro start stop path spelled joins inside covered
      obtain ⟨opened, tail, rfl, openedLabel, spelledTail⟩ := List.map_eq_cons_iff.mp spelled
      obtain ⟨closed, rest, rfl, closedLabel, empty⟩ := List.map_eq_cons_iff.mp spelledTail
      cases List.map_eq_nil_iff.mp empty
      obtain ⟨rfl, meets, rfl⟩ := joins
      have openedMember := inside opened (by simp)
      have between := built.closed.target_mem opened openedMember
      have known := (covered _ (.head _)).mem_of_open bounded
      have loop := built.closed.loop_mem opened.target between
      apply derives_enclosed known openedMember (inside closed (by simp)) openedLabel closedLabel
      · rw [meets]
        exact Components.reaches_refl built between
      · rw [meets]
        exact ⟨_, .basic empty_mem_interleaved loop rfl⟩
  | wrap family below _ induction =>
      intro start stop path spelled joins inside covered
      obtain ⟨opened, tail, rfl, openedLabel, spelledTail⟩ := List.map_eq_cons_iff.mp spelled
      obtain ⟨innerPath, last, rfl, innerSpelled, spelledLast⟩ :=
        List.map_eq_append_iff.mp spelledTail
      obtain ⟨closed, rest, rfl, closedLabel, empty⟩ := List.map_eq_cons_iff.mp spelledLast
      cases List.map_eq_nil_iff.mp empty
      obtain ⟨rfl, tailJoins⟩ := joins
      obtain ⟨middle, innerJoins, rfl, rfl⟩ := Joins.append_iff.mp tailJoins
      have openedMember := inside opened (by simp)
      have innerInside : ∀ edge ∈ innerPath, edge ∈ graph.edges :=
        fun edge member => inside edge (by simp [member])
      have known := (covered _ (.head _)).mem_of_open bounded
      have reaches := Components.reaches_of_joins built innerJoins innerInside
        (built.closed.target_mem opened openedMember)
      exact derives_enclosed known openedMember (inside closed (by simp)) openedLabel closedLabel
        reaches (induction innerSpelled innerJoins innerInside
          fun label member => covered label (by simp [member]))

theorem derives_of_interleavedWalk (proper : component.Proper) {path : List Edge}
    (walk : InterleavedWalk component.graph span path) :
    ∃ used, (interleaved component.ids).Derives component.graph Grammar.startName [span] used :=
  derives_of_interleaved proper.built proper.bounded walk.interleaved rfl walk.joins
    (fun edge member => (Graph.mem_labelledEdges.mp (walk.inside edge member)).1)
    (proper.covered walk.balanced)

theorem mem_spans_solve_interleaved (proper : component.Proper) {options : SolveOptions}
    (irreflexive : span.isReflexive = false) :
    span ∈ (solve component.graph (interleaved component.ids) options).spans ↔
      ∃ path, InterleavedWalk component.graph span path := by
  rw [mem_spans_solve proper.built (matching_interleaved component.ids).shape.hasArities]
  constructor
  · rintro ⟨used, derives⟩
    exact exists_interleavedWalk proper derives irreflexive
  · rintro ⟨path, walk⟩
    exact derives_of_interleavedWalk proper walk

end Walks

end BracketLanguage

end GrammarReach
