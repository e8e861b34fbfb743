import GrammarReach.Proofs.Saturation.Solutions
import GrammarReach.Grammar.Clause
import Mathlib.Data.Set.Finite.Basic

/-!
# Leaving out what cannot be linked

Segments of a derivation that keep their order all the way up end in one walk, so
derivations with unlinked segments can be left out without losing an answer.  A
concatenation that swaps or drops segments may need them.
-/

namespace GrammarReach

/-! ## Walked segments -/

/-- A walk leads along each segment. -/
def Graph.Walked (graph : Graph) (segments : List Span) : Prop :=
  ∀ span ∈ segments, graph.Reaches span.start span.stop

section Walked

variable {graph : Graph} {segments : List Span}

theorem Graph.Walked.linked_iff (walked : graph.Walked segments) :
    graph.Linked segments ↔
      segments.Pairwise fun left right => graph.Reaches left.stop right.start := by
  constructor
  · intro linked
    induction segments with
    | nil => exact .nil
    | cons first segments induction =>
        have later := induction (fun span member => walked span (by simp [member]))
          linked.tail
        refine List.pairwise_cons.mpr ⟨?_, later⟩
        cases segments with
        | nil => simp
        | cons second rest =>
            have next := (List.isChain_cons_cons.mp linked).1
            intro span member
            rcases List.mem_cons.mp member with rfl | behind
            · exact next
            · exact (next.trans (walked second (by simp))).trans
                ((List.pairwise_cons.mp later).1 span behind)
  · exact List.Pairwise.isChain

private theorem linked_of_insertIdx {index : Nat} {span : Span}
    (walked : graph.Walked (segments.insertIdx index span))
    (linked : graph.Linked (segments.insertIdx index span)) : graph.Linked segments := by
  have kept : segments.Sublist (segments.insertIdx index span) :=
    List.sublist_insertIdx segments index span
  have pairwise := walked.linked_iff.mp linked
  exact List.Pairwise.isChain (pairwise.sublist kept)

private theorem linked_of_longer {longer : List Span}
    (lengthened : List.Forall₂ (fun inner outer => graph.Reaches outer.start inner.start ∧
      graph.Reaches inner.stop outer.stop) segments longer)
    (linked : graph.Linked longer) : graph.Linked segments := by
  induction lengthened with
  | nil => exact .nil
  | @cons inner outer inners outers first rest induction =>
      have later := induction linked.tail
      cases rest with
      | nil => exact .singleton _
      | @cons next nextOuter _ _ second _ =>
          have between := (List.isChain_cons_cons.mp linked).1
          exact List.isChain_cons_cons.mpr
            ⟨(first.2.trans between).trans second.1, later⟩

private theorem longer_of_set {index : Nat} {span outer : Span}
    (found : segments[index]? = some span)
    (start : graph.Reaches outer.start span.start)
    (stop : graph.Reaches span.stop outer.stop) :
    List.Forall₂ (fun inner outer => graph.Reaches outer.start inner.start ∧
      graph.Reaches inner.stop outer.stop) segments (segments.set index outer) := by
  have same : ∀ list : List Span, List.Forall₂ (fun inner outer =>
      graph.Reaches outer.start inner.start ∧ graph.Reaches inner.stop outer.stop) list list :=
    fun list => List.forall₂_same.mpr fun other _ => ⟨.refl _ _, .refl _ _⟩
  induction segments generalizing index with
  | nil => simp at found
  | cons first segments induction =>
      cases index with
      | zero =>
          cases found
          exact .cons ⟨start, stop⟩ (same segments)
      | succ index => exact .cons ⟨.refl _ _, .refl _ _⟩ (induction found)

end Walked

/-! ## Segments in a wiring -/

section SpanChain

variable {graph : Graph} {spans : List Span} {span : Span}

private theorem SpanChain.exists_ends (chain : SpanChain spans span) :
    (∃ first rest, spans = first :: rest ∧ first.start = span.start) ∧
      ∀ last ∈ spans.getLast?, last.stop = span.stop := by
  induction chain with
  | single span => exact ⟨⟨span, [], rfl, rfl⟩, by simp⟩
  | @cons first rest spans _ chain induction =>
      refine ⟨⟨first, spans, rfl, rfl⟩, ?_⟩
      obtain ⟨⟨second, others, rfl, _⟩, last⟩ := induction
      rw [List.getLast?_cons_cons]
      exact last

private theorem SpanChain.linked (chain : SpanChain spans span) : graph.Linked spans := by
  induction chain with
  | single span => exact .singleton span
  | @cons first rest spans meets chain induction =>
      obtain ⟨⟨second, others, rfl, start⟩, _⟩ := chain.exists_ends
      refine List.isChain_cons_cons.mpr ⟨?_, induction⟩
      rw [meets, start]
      exact .refl graph _

theorem linked_flatten {chains : List (List Span)} {result : List Span}
    (spanned : List.Forall₂ SpanChain chains result) (linked : graph.Linked result) :
    graph.Linked chains.flatten := by
  induction spanned with
  | nil => exact .nil
  | @cons chain span chains result first rest induction =>
      rw [List.flatten_cons]
      refine List.isChain_append.mpr ⟨first.linked, induction linked.tail, ?_⟩
      intro last lastMember next nextMember
      cases rest with
      | nil => simp at nextMember
      | @cons following nextSpan _ _ second _ =>
          obtain ⟨⟨head, others, rfl, start⟩, _⟩ := second.exists_ends
          have between := (List.isChain_cons_cons.mp linked).1
          simp only [List.flatten_cons, List.cons_append, List.head?_cons,
            Option.mem_some_iff] at nextMember
          subst nextMember
          rw [first.exists_ends.2 last lastMember, start]
          exact between

end SpanChain

section Connects

variable {rule : ConcatenationRule} {segments : Nat → List Span} {result : List Span}

private theorem flatten_spansOf (rule : ConcatenationRule) (segments : Nat → List Span) :
    (rule.wiring.map (SegmentRef.spansOf segments)).flatten =
      SegmentRef.spansOf segments rule.wiring.flatten :=
  List.filterMap_flatten.symm

private theorem walked_spansOf {graph : Graph} (proper : rule.Proper)
    (walked : ∀ position < rule.bodies.length, graph.Walked (segments position)) :
    graph.Walked (SegmentRef.spansOf segments rule.wiring.flatten) := by
  intro span member
  obtain ⟨reference, inWiring, found⟩ := List.mem_filterMap.mp member
  exact walked reference.body (proper.body_lt reference inWiring) span
    (List.mem_of_getElem? found)

end Connects

/-! ## Order of segments -/

/-- The rule refers in their order to neighbouring segments of the body at the position,
unless the graph links these segments anyway. -/
def ConcatenationRule.KeepsOrder (rule : ConcatenationRule) (graph : Graph) (position : Nat)
    (segments : List Span) : Prop :=
  ∀ index left right, segments[index]? = some left → segments[index + 1]? = some right →
    graph.Reaches left.stop right.start ∨
      [(⟨position, index⟩ : SegmentRef), ⟨position, index + 1⟩].Sublist rule.wiring.flatten

/-- All concatenations keep the order of the segments that they may be given when nothing
is left out. -/
def Grammar.KeepsOrder (grammar : Grammar) (graph : Graph) : Prop :=
  ∀ rule ∈ grammar.concatenate, ∀ position name, rule.bodies[position]? = some name →
    ∀ segments, (name, segments) ∈ grammar.leastClosed graph (fun _ => True) →
      rule.KeepsOrder graph position segments

/-- With fixed numbers of segments, it is enough that every concatenation refers to all
segments of its bodies in their order. -/
theorem Grammar.HasArities.keepsOrder {grammar : Grammar} {arity : Nonterminal → Nat}
    (arities : grammar.HasArities arity)
    (ordered : ∀ rule ∈ grammar.concatenate, ∀ body ∈ rule.bodies.zipIdx,
      ∀ index < arity body.1 - 1,
        [(⟨body.2, index⟩ : SegmentRef), ⟨body.2, index + 1⟩].Sublist rule.wiring.flatten)
    (graph : Graph) : grammar.KeepsOrder graph := by
  intro rule member position name found segments derived index left right _ rightFound
  have inside : index + 1 < segments.length := (List.getElem?_eq_some_iff.mp rightFound).1
  have length : segments.length = arity name := arities.length_eq derived
  have body := List.mk_mem_zipIdx_iff_getElem?.mpr found
  have below : index < arity name - 1 := by omega
  exact Or.inr (ordered rule member (name, position) body index below)

section Order

variable {grammar : Grammar} {graph : Graph} {keeps : List Span → Prop}

theorem Grammar.walked_of_mem_leastClosed {entry : Entry}
    (member : entry ∈ grammar.leastClosed graph keeps) : graph.Walked entry.2 := by
  have composes : graph.Composes fun span => graph.Reaches span.start span.stop := by
    constructor
    · intro edge edgeMember
      exact .of_edge edgeMember
    · intro first second meets before behind
      exact (meets ▸ before).trans behind
  exact forall_span_of_mem_leastClosed composes member

private theorem linked_body {rule : ConcatenationRule} {segments : Nat → List Span}
    {result : List Span} (proper : rule.Proper) (connects : rule.Connects segments result)
    (walked : ∀ position < rule.bodies.length, graph.Walked (segments position))
    (linked : graph.Linked result) {position : Nat}
    (order : rule.KeepsOrder graph position (segments position)) :
    graph.Linked (segments position) := by
  have chained := linked_flatten (connects.spanChains proper) linked
  rw [flatten_spansOf] at chained
  have ordered := (walked_spansOf proper walked).linked_iff.mp chained
  refine List.isChain_iff_getElem.mpr fun index inside => ?_
  have leftFound := List.getElem?_eq_getElem (Nat.lt_of_succ_lt inside)
  have rightFound := List.getElem?_eq_getElem inside
  rcases order index _ _ leftFound rightFound with joined | referred
  · exact joined
  · have pair := referred.filterMap (SegmentRef.span? segments)
    simp only [List.filterMap_cons, SegmentRef.span?, leftFound, rightFound,
      List.filterMap_nil] at pair
    have pairwise := ordered.sublist pair
    exact (List.pairwise_cons.mp pairwise).1 _ List.mem_cons_self

/-- Linked segments that are derived when nothing is left out are still derived when
unlinked ones are left out. -/
theorem mem_leastClosed_of_linked (order : grammar.KeepsOrder graph) {entry : Entry}
    (member : entry ∈ grammar.leastClosed graph (fun _ => True))
    (linked : graph.Linked entry.2) :
    entry ∈ grammar.leastClosed graph graph.Linked := by
  have closes : grammar.Closes graph (fun _ => True)
      {entry ∈ grammar.leastClosed graph (fun _ => True) |
        graph.Linked entry.2 → entry ∈ grammar.leastClosed graph graph.Linked} := by
    intro entry infers _
    have free := Grammar.mem_leastClosed_of_infers (infers.mono fun _ known => known.1) trivial
    have walked := Grammar.walked_of_mem_leastClosed free
    refine ⟨free, fun linked => Grammar.mem_leastClosed_of_infers ?_ linked⟩
    cases infers with
    | basic member edgeMember label => exact .basic member edgeMember label
    | @prepend rule segments span source member body found edgeMember =>
        have lengthened := @longer_of_set graph segments rule.index span ⟨source, span.stop⟩
          found (.of_edge edgeMember) (.refl graph _)
        exact .prepend member (body.2 (linked_of_longer lengthened linked)) found edgeMember
    | @append rule segments span target member body found edgeMember =>
        have lengthened := @longer_of_set graph segments rule.index span ⟨span.start, target⟩
          found (.refl graph _) (.of_edge edgeMember)
        exact .append member (body.2 (linked_of_longer lengthened linked)) found edgeMember
    | insert member body inside edgeMember label =>
        exact .insert member (body.2 (linked_of_insertIdx walked linked)) inside edgeMember
          label
    | @concatenate rule result segments member proper bodies connects =>
        have bodiesWalked : ∀ position < rule.bodies.length,
            graph.Walked (segments position) := fun position inside =>
          Grammar.walked_of_mem_leastClosed
            (bodies position _ (List.getElem?_eq_getElem inside)).1
        refine .concatenate segments member proper (fun position name found => ?_) connects
        have body := bodies position name found
        exact body.2 (linked_body proper connects bodiesWalked linked
          (order rule member position name found _ body.1))
  exact (Grammar.leastClosed_subset closes member).2 linked

end Order

theorem hasArities_nestedPairs :
    nestedPairs.HasArities fun name => if name = "P" then 2 else 1 := by
  constructor
  · decide
  · decide
  · decide
  · decide
  · decide

/-- The segments for `a` and `b` are swapped. -/
def swappedPair : Grammar where
  basic := [⟨"A", "a"⟩]
  insert := [⟨"B", "A", "b", 1, 1⟩]
  concatenate := [⟨"S", ["B"], [[⟨0, 1⟩, ⟨0, 0⟩]]⟩]

end GrammarReach
