import GrammarReach.Proofs.Saturation.Compilation
import GrammarReach.Saturation.Candidates
import Mathlib.Data.List.Forall2

/-!
# What a wiring makes of segments

A concatenation is given the segments of each body.  It makes the segments of its
head when every reference names a segment, every link meets at a vertex and every
chain has a span.  The numbered form of the rule asks for the same.
-/

namespace GrammarReach

namespace SegmentRef

/-- The segment that a reference names among the segments of each body. -/
def span? (segments : Nat → List Span) (reference : SegmentRef) : Option Span :=
  (segments reference.body)[reference.segment]?

/-- The span of a chain: from the start of its first segment to the stop of its
last one. -/
def chainSpan? (segments : Nat → List Span) (chain : List SegmentRef) : Option Span := do
  let first ← chain.head?
  let last ← chain.getLast?
  let firstSpan ← first.span? segments
  let lastSpan ← last.span? segments
  return ⟨firstSpan.start, lastSpan.stop⟩

end SegmentRef

/-- The concatenation makes the segments of its head of those of its bodies. -/
structure ConcatenationRule.Connects (rule : ConcatenationRule)
    (segments : Nat → List Span) (result : List Span) : Prop where
  arities : ∀ position < rule.bodies.length,
    rule.bodyArity position ≤ (segments position).length
  linked : ∀ link ∈ rule.links, ∀ left right,
    link.1.span? segments = some left → link.2.span? segments = some right →
      left.stop = right.start
  chained : rule.wiring.mapM (SegmentRef.chainSpan? segments) = some result

private theorem forall₂_of_mapM {α β : Type} {items : List α} {function : α → Option β}
    {results : List β} (success : items.mapM function = some results) :
    List.Forall₂ (fun item result => function item = some result) items results := by
  induction items generalizing results with
  | nil =>
      simp only [List.mapM_nil, Option.pure_def, Option.some.injEq] at success
      exact success ▸ .nil
  | cons item items induction =>
      rw [List.mapM_cons] at success
      simp only [Option.bind_eq_bind, Option.bind_eq_some_iff] at success
      obtain ⟨result, found, rest, restSuccess, same⟩ := success
      cases same
      exact .cons found (induction restSuccess)

theorem exists_related {α β : Type} {related : α → β → Prop} {items : List α}
    {results : List β} (both : List.Forall₂ related items results) {result : β}
    (member : result ∈ results) : ∃ item ∈ items, related item result := by
  induction both with
  | nil => simp at member
  | @cons item first items results here _ induction =>
      rcases List.mem_cons.mp member with rfl | later
      · exact ⟨item, by simp, here⟩
      · obtain ⟨other, otherMember, there⟩ := induction later
        exact ⟨other, by simp [otherMember], there⟩

theorem ConcatenationRule.Connects.chains {rule : ConcatenationRule}
    {segments : Nat → List Span} {result : List Span}
    (connects : rule.Connects segments result) :
    List.Forall₂ (fun chain span => SegmentRef.chainSpan? segments chain = some span)
      rule.wiring result :=
  forall₂_of_mapM connects.chained

/-- The join makes the segments of its head of those of its bodies. -/
structure Join.Connects (join : Join) (segments : Nat → List Span)
    (result : List Span) : Prop where
  arities : ∀ position < join.bodies.length,
    join.arityAt position ≤ (segments position).length
  linked : ∀ link ∈ join.links, ∀ left right,
    link.1.span? segments = some left → link.2.span? segments = some right →
      left.stop = right.start
  chained : join.wiring.mapM (SegmentRef.chainSpan? segments) = some result

namespace ConcatenationRule

private theorem le_foldl_arity (references : List SegmentRef) (position arity : Nat) :
    arity ≤ references.foldl (fun arity reference =>
      if reference.body = position then max arity (reference.segment + 1) else arity)
      arity := by
  induction references generalizing arity with
  | nil => exact Nat.le_refl arity
  | cons reference references induction =>
      refine Nat.le_trans ?_ (induction _)
      by_cases same : reference.body = position
      · simp only [same, if_true]
        exact Nat.le_max_left _ _
      · simp only [same, if_false]
        exact Nat.le_refl arity

private theorem segment_lt_foldl_arity {references : List SegmentRef}
    {reference : SegmentRef} (member : reference ∈ references) (arity : Nat) :
    reference.segment < references.foldl (fun arity other =>
      if other.body = reference.body then max arity (other.segment + 1) else arity)
      arity := by
  induction references generalizing arity with
  | nil => simp at member
  | cons first references induction =>
      rcases List.mem_cons.mp member with rfl | later
      · refine Nat.lt_of_lt_of_le ?_ (le_foldl_arity references _ _)
        simp only [if_true]
        exact Nat.lt_of_lt_of_le (Nat.lt_succ_self _) (Nat.le_max_right _ _)
      · exact induction later _

theorem segment_lt_bodyArity {rule : ConcatenationRule} {reference : SegmentRef}
    (member : reference ∈ rule.wiring.flatten) :
    reference.segment < rule.bodyArity reference.body :=
  segment_lt_foldl_arity member 0

private theorem foldl_arity_le {references : List SegmentRef} {position arity bound : Nat}
    (small : arity ≤ bound)
    (below : ∀ reference ∈ references, reference.body = position → reference.segment < bound) :
    references.foldl (fun arity reference =>
      if reference.body = position then max arity (reference.segment + 1) else arity)
      arity ≤ bound := by
  induction references generalizing arity with
  | nil => exact small
  | cons reference references induction =>
      rw [List.foldl_cons]
      apply induction
      · split
        · rename_i here
          exact Nat.max_le.mpr ⟨small, below reference (by simp) here⟩
        · exact small
      · exact fun other member => below other (by simp [member])

theorem bodyArity_le {rule : ConcatenationRule} {position bound : Nat}
    (below : ∀ reference ∈ rule.wiring.flatten, reference.body = position →
      reference.segment < bound) : rule.bodyArity position ≤ bound :=
  foldl_arity_le (Nat.zero_le bound) below

theorem mem_flatten_of_mem_links {rule : ConcatenationRule}
    {link : SegmentRef × SegmentRef} (member : link ∈ rule.links) :
    link.1 ∈ rule.wiring.flatten ∧ link.2 ∈ rule.wiring.flatten := by
  obtain ⟨chain, chainMember, pairMember⟩ := List.mem_flatMap.mp member
  obtain ⟨left, right⟩ := List.of_mem_zip pairMember
  exact ⟨List.mem_flatten.mpr ⟨chain, chainMember, left⟩,
    List.mem_flatten.mpr ⟨chain, chainMember, List.mem_of_mem_tail right⟩⟩

end ConcatenationRule

namespace Join

/-- Both ends of every link name segments that the join asks of its bodies. -/
structure Scoped (join : Join) : Prop where
  left : ∀ link ∈ join.links, link.1.segment < join.arityAt link.1.body
  right : ∀ link ∈ join.links, link.2.segment < join.arityAt link.2.body

variable {nonterminals : Nonterminals} {rule : ConcatenationRule} {join : Join}

theorem Numbers.length_bodies (numbers : join.Numbers nonterminals rule) :
    join.bodies.length = rule.bodies.length := by
  have lengths := congrArg List.length numbers.bodies
  simpa using lengths.symm

theorem Numbers.arityAt (numbers : join.Numbers nonterminals rule) {position : Nat}
    (inside : position < rule.bodies.length) :
    join.arityAt position = rule.bodyArity position := by
  simp [Join.arityAt, numbers.arities, inside]

theorem Numbers.scoped (numbers : join.Numbers nonterminals rule)
    (proper : rule.Proper) : join.Scoped := by
  constructor
  · intro link member
    have inWiring := (rule.mem_flatten_of_mem_links (numbers.links ▸ member)).1
    rw [numbers.arityAt (proper.body_lt _ inWiring)]
    exact ConcatenationRule.segment_lt_bodyArity inWiring
  · intro link member
    have inWiring := (rule.mem_flatten_of_mem_links (numbers.links ▸ member)).2
    rw [numbers.arityAt (proper.body_lt _ inWiring)]
    exact ConcatenationRule.segment_lt_bodyArity inWiring

/-- A concatenation and its numbered form make the same segments. -/
theorem Numbers.connects_iff (numbers : join.Numbers nonterminals rule)
    {segments : Nat → List Span} {result : List Span} :
    join.Connects segments result ↔ rule.Connects segments result := by
  constructor
  · rintro ⟨arities, linked, chained⟩
    refine ⟨?_, numbers.links ▸ linked, numbers.wiring ▸ chained⟩
    intro position inside
    rw [← numbers.arityAt inside]
    exact arities position (numbers.length_bodies ▸ inside)
  · rintro ⟨arities, linked, chained⟩
    refine ⟨?_, numbers.links.symm ▸ linked, numbers.wiring.symm ▸ chained⟩
    intro position inside
    rw [numbers.length_bodies] at inside
    rw [numbers.arityAt inside]
    exact arities position inside

end Join

/-! ## Chains of spans -/

/-- The spans meet end to start and lead from the start of the last argument to its
stop. -/
inductive SpanChain : List Span → Span → Prop where
  | single (span : Span) : SpanChain [span] span
  | cons {first rest : Span} {spans : List Span} : first.stop = rest.start →
      SpanChain spans rest → SpanChain (first :: spans) ⟨first.start, rest.stop⟩

section SpanChains

variable {rule : ConcatenationRule} {segments : Nat → List Span} {result : List Span}

/-- The segments that a chain of references names. -/
def SegmentRef.spansOf (segments : Nat → List Span) (chain : List SegmentRef) : List Span :=
  chain.filterMap (SegmentRef.span? segments)

theorem ConcatenationRule.exists_span_of_arities (proper : rule.Proper)
    (arities : ∀ position < rule.bodies.length,
      rule.bodyArity position ≤ (segments position).length)
    {reference : SegmentRef} (member : reference ∈ rule.wiring.flatten) :
    ∃ span, reference.span? segments = some span := by
  have long := arities reference.body (proper.body_lt reference member)
  have inside := Nat.lt_of_lt_of_le (ConcatenationRule.segment_lt_bodyArity member) long
  exact ⟨_, List.getElem?_eq_getElem inside⟩

theorem ConcatenationRule.Connects.exists_span (proper : rule.Proper)
    (connects : rule.Connects segments result)
    {reference : SegmentRef} (member : reference ∈ rule.wiring.flatten) :
    ∃ span, reference.span? segments = some span :=
  rule.exists_span_of_arities proper connects.arities member

private theorem spanChain_of_references {chain : List SegmentRef} {span : Span}
    (named : ∀ reference ∈ chain, ∃ span, reference.span? segments = some span)
    (meets : ∀ link ∈ ConcatenationRule.neighbours chain, ∀ left right,
      link.1.span? segments = some left → link.2.span? segments = some right →
        left.stop = right.start)
    (found : SegmentRef.chainSpan? segments chain = some span) :
    SpanChain (SegmentRef.spansOf segments chain) span := by
  induction chain generalizing span with
  | nil => simp [SegmentRef.chainSpan?] at found
  | cons reference chain induction =>
      obtain ⟨first, firstFound⟩ := named reference (by simp)
      cases chain with
      | nil =>
          simp only [SegmentRef.chainSpan?, List.head?_cons, List.getLast?_singleton,
            Option.bind_eq_bind, Option.bind_some, firstFound, Option.pure_def,
            Option.some.injEq] at found
          subst found
          simp only [SegmentRef.spansOf, List.filterMap_cons, firstFound, List.filterMap_nil]
          exact .single first
      | cons next rest =>
          obtain ⟨second, secondFound⟩ := named next (by simp)
          obtain ⟨last, lastFound⟩ : ∃ last, (next :: rest).getLast? = some last :=
            ⟨_, List.getLast?_eq_getLast_of_ne_nil (by simp)⟩
          obtain ⟨final, finalFound⟩ := named last
            (List.mem_cons_of_mem _ (List.mem_of_getLast? lastFound))
          have restFound : SegmentRef.chainSpan? segments (next :: rest) =
              some ⟨second.start, final.stop⟩ := by
            simp [SegmentRef.chainSpan?, lastFound, secondFound, finalFound]
          have same : span = ⟨first.start, final.stop⟩ := by
            simp only [SegmentRef.chainSpan?, List.head?_cons, List.getLast?_cons_cons,
              lastFound, Option.bind_eq_bind, Option.bind_some, firstFound, finalFound,
              Option.pure_def, Option.some.injEq] at found
            exact found.symm
          have behind := induction (fun other member => named other (by simp [member]))
            (fun link member => meets link (List.mem_cons_of_mem _ member)) restFound
          have between := meets (reference, next) List.mem_cons_self first second
            firstFound secondFound
          simp only [SegmentRef.spansOf, List.filterMap_cons (a := reference), firstFound]
          exact same ▸ @SpanChain.cons first ⟨second.start, final.stop⟩ _ between behind

theorem ConcatenationRule.Connects.spanChains (proper : rule.Proper)
    (connects : rule.Connects segments result) :
    List.Forall₂ SpanChain (rule.wiring.map (SegmentRef.spansOf segments)) result := by
  rw [List.forall₂_map_left_iff]
  have inWiring : ∀ chain ∈ rule.wiring, chain ∈ rule.wiring := fun _ member => member
  have chains := (List.forall₂_and_left rule.wiring result).mpr ⟨inWiring, connects.chains⟩
  refine chains.imp fun chain span => ?_
  rintro ⟨member, found⟩
  refine spanChain_of_references (fun reference inChain => ?_) (fun link neighbours => ?_) found
  · exact connects.exists_span proper (List.mem_flatten.mpr ⟨chain, member, inChain⟩)
  · exact connects.linked link (List.mem_flatMap.mpr ⟨chain, member, neighbours⟩)

end SpanChains

end GrammarReach
