import GrammarReach.Proofs.Analysis.Histories
import GrammarReach.Proofs.Analysis.RearrangedBounds

/-!
# The order of the edges

Brackets are found, rules are written down and graphs are searched in the order in which the
edges were added, and none of this shows in the answers.  Analyses of rearranged graphs hand
on rearranged graphs from stage to stage, the same vertices are merged, and after the first
round of a refinement both sessions even refine the same graphs.  The brackets have to be
spelled canonically, since otherwise the order decides which of them have a partner.
-/

namespace GrammarReach

/-! ## Merging vertices of rearranged graphs -/

namespace Condensation

/-- The condensations merge the same vertices, and their graphs are rearranged. -/
structure Rearranges (condensation other : Condensation) : Prop where
  graph : condensation.graph.Rearranges other.graph
  representatives : condensation.representatives = other.representatives
  groups : condensation.groups = other.groups

theorem rearranges_ofKnown {graph other : Graph} (rearranges : graph.Rearranges other)
    {known others : SpanSet} (same : known.toList = others.toList) :
    (ofKnown graph known).Rearranges (ofKnown other others) := by
  have joined : ((mutualSpans known).foldl joinEnds (apart graph)).groups =
      ((mutualSpans others).foldl joinEnds (apart other)).groups := by
    unfold mutualSpans apart
    simp only [same, SpanSet.contains_of_toList same, rearranges.vertexList]
  have representatives : (ofKnown graph known).representatives =
      (ofKnown other others).representatives := by
    simp only [ofKnown, joined]
  refine ⟨?_, representatives, by simp only [ofKnown, joined]⟩
  have lift : (ofKnown graph known).liftEdge = (ofKnown other others).liftEdge := by
    funext edge
    unfold liftEdge representative
    rw [representatives]
  rw [graph_ofKnown, graph_ofKnown, lift]
  refine Graph.rearranges_ofDistinctEdges (fun edge member => ?_) (rearranges.labelledEdges.map _)
  obtain ⟨original, inside, rfl⟩ := List.mem_map.mp member
  exact (Graph.mem_labelledEdges.mp inside).2

section Rearranges

variable {condensation other : Condensation} (rearranges : condensation.Rearranges other)

include rearranges

theorem Rearranges.lift (span : Span) : condensation.lift span = other.lift span := by
  unfold Condensation.lift representative
  rw [rearranges.representatives]

theorem Rearranges.expand (spans : List Span) : condensation.expand spans = other.expand spans := by
  unfold Condensation.expand group members
  rw [rearranges.groups, rearranges.graph.vertexList]

end Rearranges

end Condensation

/-! ## Refining rearranged graphs -/

namespace Refinement

private theorem interchangeable {part other : Graph} (rearranges : part.Rearranges other)
    (canonical : CanonicalBrackets part.labelledEdges) : part.Interchangeable other where
  isTrivial := rearranges.isTrivial
  edgeCount := (rearranges.matchedBrackets canonical).edgeCount
  mem_labelledEdges _ := (rearranges.matchedBrackets canonical).mem_labelledEdges

private theorem forall₂_relevantPart {target : Option Span} {pieces others : List Graph}
    (rearranges : List.Forall₂ Graph.Rearranges pieces others)
    (canonical : ∀ piece ∈ pieces, CanonicalBrackets piece.labelledEdges) :
    List.Forall₂ Graph.Interchangeable (pieces.filterMap (relevantPart target))
      (others.filterMap (relevantPart target)) := by
  induction rearranges with
  | nil => exact .nil
  | @cons piece other pieces others first _ induction =>
      obtain ⟨firstCanonical, restCanonical⟩ := List.forall_mem_cons.mp canonical
      have rest := induction restCanonical
      cases target with
      | none => exact .cons (interchangeable first firstCanonical) rest
      | some span =>
          rw [List.filterMap_cons, List.filterMap_cons]
          simp only [relevantPart, first.containsVertex]
          cases other.containsVertex span.start && other.containsVertex span.stop with
          | false => exact rest
          | true =>
              exact .cons (interchangeable (first.restrictTo [span])
                (firstCanonical.mono fun _ => Graph.labelledEdges_of_restrictTo)) rest

theorem graphsAlike {graph other : Graph} (rearranges : graph.Rearranges other)
    (canonical : CanonicalBrackets graph.labelledEdges) (target : Option Span) :
    GraphsAlike target graph other where
  edgeCount := rearranges.edgeCount
  containsTarget := by
    cases target with
    | none => rfl
    | some span => simp only [Graph.containsTarget, rearranges.containsVertex]
  parts := forall₂_relevantPart rearranges.pieces fun _ member =>
    canonical.mono fun _ => Graph.labelledEdges_of_mem_pieces member

end Refinement

/-! ## Stages on rearranged graphs -/

section Canonical

variable {graph : Graph} (canonical : CanonicalBrackets graph.labelledEdges)

include canonical

private theorem CanonicalBrackets.prepared (settings : Settings) :
    CanonicalBrackets (Session.prepared settings graph).labelledEdges :=
  canonical.mono fun _ => Session.labelledEdges_of_prepared

private theorem CanonicalBrackets.shrinkTo (spans : SpanSet) :
    CanonicalBrackets (graph.shrinkTo spans).labelledEdges :=
  canonical.mono fun _ => Graph.labelledEdges_of_shrinkTo

private theorem CanonicalBrackets.ofKnown (known : SpanSet) :
    CanonicalBrackets (Condensation.ofKnown graph known).graph.labelledEdges := by
  intro edge member family own
  rw [Condensation.graph_ofKnown, Graph.mem_labelledEdges_ofDistinctEdges] at member
  obtain ⟨original, inside, rfl⟩ := List.mem_map.mp member.1
  exact canonical original inside family own

end Canonical

namespace Graph.Rearranges

variable {graph other : Graph} (rearranges : graph.Rearranges other)

include rearranges

private theorem prepared (settings : Settings) :
    (Session.prepared settings graph).Rearranges (Session.prepared settings other) := by
  unfold Session.prepared
  cases settings.family with
  | taint => exact rearranges
  | valueFlow => exact rearranges.keepFlows

private theorem shrinkTo (canonical : CanonicalBrackets graph.labelledEdges)
    {spans others : SpanSet} (same : spans.toList = others.toList) :
    (graph.shrinkTo spans).Rearranges (other.shrinkTo others) := by
  unfold Graph.shrinkTo
  rw [← same]
  exact (rearranges.restrictTo _).matchedBrackets
    (canonical.mono fun _ => labelledEdges_of_restrictTo)

end Graph.Rearranges

namespace Session

section Stages

variable {first second : Session} {graph other : Graph} {under lower upper bound : SpanSet}

private theorem Mirrors.refineRearranged (mirrors : first.Mirrors second)
    (rearranges : graph.Rearranges other) (canonical : CanonicalBrackets graph.labelledEdges)
    (sameUnder : under.toList = lower.toList)
    (free : CollisionFree (first.refineCondensed graph under).2.asked)
    (otherFree : CollisionFree (second.refineCondensed other lower).2.asked) :
    (first.refineCondensed graph under).1 = (second.refineCondensed other lower).1 ∧
      (first.refineCondensed graph under).2.Mirrors
        (second.refineCondensed other lower).2 := by
  have merged := Condensation.rearranges_ofKnown rearranges sameUnder
  have alike := Refinement.graphsAlike merged.graph (canonical.ofKnown under) none
  rw [first.refineCondensed_eq] at free ⊢
  rw [second.refineCondensed_eq] at otherFree ⊢
  generalize Condensation.ofKnown graph under = condensation at merged alike free ⊢
  generalize Condensation.ofKnown other lower = condensed at merged alike otherFree ⊢
  simp only at free otherFree ⊢
  obtain ⟨found, later⟩ := mirrors.mutualRefinement alike (by simp) free otherFree
  exact ⟨by rw [found, merged.expand], later⟩

private theorem StageRun.rearranged {mode : GrammarMode} {outcome others : SpanSet × Session}
    (run : StageRun first mode graph under upper outcome)
    (otherRun : StageRun second mode other lower bound others)
    (same : first.settings = second.settings) (rearranges : graph.Rearranges other)
    (canonical : CanonicalBrackets graph.labelledEdges)
    (sameUnder : under.toList = lower.toList) (sameUpper : upper.toList = bound.toList)
    (free : CollisionFree outcome.2.asked) (otherFree : CollisionFree others.2.asked) :
    outcome.1.toList = others.1.toList ∧ outcome.2.Mirrors others.2 := by
  cases run with
  | refined refines =>
      cases otherRun with
      | refined otherRefines =>
          have mirrors := @mirrors_setUp first second first.settings.mode
            first.settings.cacheClearInterval same.symm mode
          have alike := mirrors.refineRearranged rearranges canonical sameUnder
          rw [refines, otherRefines] at alike
          obtain ⟨found, later⟩ := alike free otherFree
          simp only at found
          refine ⟨SpanSet.toList_eq_iff.mpr fun span => ?_, later⟩
          rw [SpanSet.mem_common, SpanSet.mem_common, found,
            SpanSet.toList_eq_iff.mp sameUpper span]

private theorem Mirrors.onDemandRearranged (mirrors : first.Mirrors second)
    (rearranges : graph.Rearranges other)
    (canonical : CanonicalBrackets graph.labelledEdges)
    (sameUnder : under.toList = lower.toList) (sameUpper : upper.toList = bound.toList)
    (free : CollisionFree (first.onDemand graph under upper).2.asked)
    (otherFree : CollisionFree (second.onDemand other lower bound).2.asked) :
    (first.onDemand graph under upper).1.toList =
      (second.onDemand other lower bound).1.toList := by
  have merged := Condensation.rearranges_ofKnown rearranges sameUnder
  have alike : Inquiry.CondensationsAlike (.ofKnown graph under) (.ofKnown other lower) :=
    ⟨merged.lift, Refinement.graphsAlike merged.graph (canonical.ofKnown under)⟩
  have questions : questions (.ofKnown graph under) under upper =
      questions (.ofKnown other lower) lower bound := by
    unfold Session.questions Inquiry.queue SpanSet.missing
    simp only [merged.lift, sameUpper, SpanSet.contains_of_toList sameUnder]
  have start : Inquiry.Mirrors (fun known others => known.toList = others.toList)
      { session := first, confirmed := under } { session := second, confirmed := lower } :=
    ⟨mirrors, rfl, sameUnder⟩
  have insert : ∀ {known others : SpanSet} (span : Span), known.toList = others.toList →
      (known.insert span).toList = (others.insert span).toList := by
    intro known others span same
    refine SpanSet.toList_eq_iff.mpr fun found => ?_
    rw [Std.TreeSet.mem_insert, Std.TreeSet.mem_insert, SpanSet.toList_eq_iff.mp same found]
  rw [first.onDemand_eq] at free ⊢
  rw [second.onDemand_eq] at otherFree ⊢
  unfold inquired at free otherFree ⊢
  rw [← questions] at otherFree ⊢
  exact (start.questions insert alike free otherFree).confirmed

end Stages

end Session

/-- Both analyses give the same answers in every stage. -/
structure StageResults.Same (first second : StageResults) : Prop where
  regularization : first.regularization.toList = second.regularization.toList
  intersection : first.intersection.toList = second.intersection.toList
  underApproximation : first.underApproximation.toList = second.underApproximation.toList
  classic : first.classic.toList = second.classic.toList
  augmented : first.augmented.toList = second.augmented.toList
  onDemand : first.onDemand.toList = second.onDemand.toList

namespace Session

theorem same_analyze_of_rearranges {first second : Session} {graph other : Graph}
    (same : first.settings = second.settings) (rearranges : graph.Rearranges other)
    (canonical : CanonicalBrackets graph.labelledEdges)
    (free : CollisionFree (first.analyze graph).2.asked)
    (otherFree : CollisionFree (second.analyze other).2.asked) :
    (first.analyze graph).1.Same (second.analyze other).1 := by
  have regularization :
      (first.analyze graph).1.regularization.toList =
        (second.analyze other).1.regularization.toList := by
    rw [regularization_analyze, regularization_analyze, ← same]
    exact (rearranges.prepared first.settings).toList_regularization first.settings
  have run := analysisRun_analyze first graph
  have otherRun := analysisRun_analyze second other
  generalize first.analyze graph = outcome at run free regularization ⊢
  generalize second.analyze other = others at otherRun otherFree regularization ⊢
  cases run with
  | @stages prepared narrowed _ upper _ classic augmented _ _ _ _ start upperEq narrowedEq underEq
      classicRun augmentedRun asked =>
      cases otherRun with
      | stages otherStart otherUpper otherNarrowed otherUnder otherClassic otherAugmented
          otherAsked =>
          have alike := rearranges.prepared first.settings
          have canonicalPrepared := canonical.prepared first.settings
          rw [← same] at otherStart otherUpper otherUnder
          rw [start, otherStart] at alike
          rw [start] at canonicalPrepared
          have loops : first.settings.family = .valueFlow → prepared.LoopsOnly :=
            fun flow => start ▸ loopsOnly_prepared flow
          have sameUpper := alike.toList_intersection loops
          rw [upperEq, otherUpper] at sameUpper
          have alikeNarrowed := alike.shrinkTo canonicalPrepared sameUpper
          have canonicalNarrowed := canonicalPrepared.shrinkTo upper
          rw [narrowedEq, otherNarrowed] at alikeNarrowed
          rw [narrowedEq] at canonicalNarrowed
          have sameUnder := alikeNarrowed.toList_underApproximation first.settings
          rw [underEq, otherUnder] at sameUnder
          have freeSecond := free.mono (precedes_of_onDemand asked).asked
          have otherFreeSecond := otherFree.mono (precedes_of_onDemand otherAsked).asked
          obtain ⟨sameClassic, _⟩ := classicRun.rearranged otherClassic same alikeNarrowed
            canonicalNarrowed sameUnder sameUpper (freeSecond.mono augmentedRun.later.1.asked)
            (otherFreeSecond.mono otherAugmented.later.1.asked)
          have alikeMiddle := alikeNarrowed.shrinkTo canonicalNarrowed sameClassic
          have canonicalMiddle := canonicalNarrowed.shrinkTo classic
          have sameLater := classicRun.later.1.settings.trans
            (same.trans otherClassic.later.1.settings.symm)
          obtain ⟨sameAugmented, mirrors⟩ := augmentedRun.rearranged otherAugmented sameLater
            alikeMiddle canonicalMiddle sameUnder sameClassic freeSecond otherFreeSecond
          have alikeLast := alikeMiddle.shrinkTo canonicalMiddle sameAugmented
          have sameOnDemand := mirrors.onDemandRearranged alikeLast
            (canonicalMiddle.shrinkTo augmented) sameUnder sameAugmented
          rw [asked, otherAsked] at sameOnDemand
          exact ⟨regularization, sameUpper, sameUnder, sameClassic, sameAugmented,
            sameOnDemand free otherFree⟩

/-- No answer depends on the order in which the edges were added. -/
theorem edge_order_invisible (settings : Settings) {edges others : List Edge}
    (perm : edges.Perm others) (canonical : CanonicalBrackets edges) :
    (CollisionFree ((ofSettings settings).analyze (.ofEdges edges)).2.asked →
      CollisionFree ((ofSettings settings).analyze (.ofEdges others)).2.asked →
      ((ofSettings settings).analyze (.ofEdges edges)).1.Same
        ((ofSettings settings).analyze (.ofEdges others)).1) ∧
    ∀ target : Option Span,
      CollisionFree ((ofSettings settings).mutualRefinement (.ofEdges edges) target).2.asked →
      CollisionFree ((ofSettings settings).mutualRefinement (.ofEdges others) target).2.asked →
      ((ofSettings settings).mutualRefinement (.ofEdges edges) target).1.toList =
        ((ofSettings settings).mutualRefinement (.ofEdges others) target).1.toList := by
  have rearranges := Graph.rearranges_ofEdges perm
  have canonicalGraph : CanonicalBrackets (Graph.ofEdges edges).labelledEdges :=
    canonical.mono fun _ member => (Graph.mem_labelledEdges_ofEdges.mp member).1
  refine ⟨same_analyze_of_rearranges rfl rearranges canonicalGraph, fun target free otherFree => ?_⟩
  have mirrors : (ofSettings settings).Mirrors (ofSettings settings) :=
    ⟨faithful_ofSettings settings, faithful_ofSettings settings, rfl, rfl⟩
  have valid := (@Reachable.fresh settings).valid.1
  exact mirrors.toList_of_alike (Refinement.graphsAlike rearranges canonicalGraph target) valid
    valid free otherFree

/-- The shortest value flow is answered alike when its closing edge is added first. -/
theorem edge_order_invisible_flowPath :
    (flowSession.analyze (.ofEdges flowPath)).1.Same
        (flowSession.analyze (.ofEdges flowPath.reverse)).1 ∧
      (flowSession.mutualRefinement (.ofEdges flowPath) (some ⟨0, 2⟩)).1.toList =
        (flowSession.mutualRefinement (.ofEdges flowPath.reverse) (some ⟨0, 2⟩)).1.toList := by
  have canonical : CanonicalBrackets flowPath := by
    intro edge member _ _
    simp only [flowPath, List.mem_cons, List.not_mem_nil, or_false] at member
    rcases member with rfl | rfl
    · exact @CanonicalLabel.opening .bracket 0 (by decide)
    · exact @CanonicalLabel.closing .bracket 0 (by decide)
  have fresh : flowSession = ofSettings flowSession.settings := rfl
  rw [fresh]
  have invisible := edge_order_invisible flowSession.settings
    (List.reverse_perm flowPath).symm canonical
  exact ⟨invisible.1 collisionFree_flowPath (by decide +kernel),
    invisible.2 (some ⟨0, 2⟩) (by decide +kernel) (by decide +kernel)⟩

end Session

end GrammarReach
