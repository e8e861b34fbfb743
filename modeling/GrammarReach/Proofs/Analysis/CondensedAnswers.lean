import GrammarReach.Proofs.Analysis.Approximation
import GrammarReach.Proofs.Analysis.SettledRounds
import GrammarReach.Proofs.Bracket.PaddedWords
import GrammarReach.Proofs.Graph.Condensation

/-!
# Answers on a condensed graph

Vertices are merged when interleaved walks join them in both directions.  A walk between
representatives becomes one between any members of their groups: its edges come from edges
of the graph, and interleaved walks lead from one to the next.  That pads its word, so it
is accepted as before.  What sustains a settled piece of the condensed graph therefore has
a counterpart in the graph itself, and refinement there answers as well.
-/

namespace GrammarReach

/-! ## Vertices that are joined in both directions -/

/-- The vertices are the same, or interleaved walks lead from each to the other. -/
def Graph.MutuallyJoined (graph : Graph) (first second : Vertex) : Prop :=
  first = second ∨ ((∃ path, InterleavedWalk graph ⟨first, second⟩ path) ∧
    ∃ path, InterleavedWalk graph ⟨second, first⟩ path)

/-- The edges of interleaved walks between different vertices. -/
def Graph.interleavedEdges (graph : Graph) : Set Edge :=
  {edge | ∃ span path, span.isReflexive = false ∧ InterleavedWalk graph span path ∧ edge ∈ path}

section Joined

variable {graph : Graph} {first second third : Vertex}

theorem InterleavedWalk.append {path other : List Edge}
    (before : InterleavedWalk graph ⟨first, second⟩ path)
    (behind : InterleavedWalk graph ⟨second, third⟩ other) :
    InterleavedWalk graph ⟨first, third⟩ (path ++ other) where
  joins := before.joins.append behind.joins
  inside edge member := (List.mem_append.mp member).elim (before.inside edge) (behind.inside edge)
  interleaved := by
    rw [wordOf_append]
    exact before.interleaved.append behind.interleaved

theorem equivalence_mutuallyJoined (graph : Graph) : Equivalence graph.MutuallyJoined where
  refl _ := .inl rfl
  symm joined := joined.imp Eq.symm And.symm
  trans := by
    rintro first second third (rfl | ⟨⟨onward, onwardWalk⟩, back, backWalk⟩) joined
    · exact joined
    · rcases joined with rfl | ⟨⟨further, furtherWalk⟩, again, againWalk⟩
      · exact .inr ⟨⟨onward, onwardWalk⟩, back, backWalk⟩
      · exact .inr ⟨⟨_, onwardWalk.append furtherWalk⟩, _, againWalk.append backWalk⟩

theorem interleavedEdges_subset (graph : Graph) : graph.interleavedEdges ⊆ graph.edgeSet := by
  rintro edge ⟨_, _, _, walk, onPath⟩
  exact walk.inside edge onPath

private theorem exists_padding (joined : graph.MutuallyJoined first second) :
    ∃ path, WalkWithin graph.interleavedEdges (Padded []) ⟨first, second⟩ path := by
  by_cases same : first = second
  · subst same
    exact ⟨[], rfl, by simp, .core⟩
  · obtain ⟨⟨path, walk⟩, _⟩ := joined.resolve_left same
    exact ⟨path, walk.joins,
      fun edge onPath => ⟨_, path, Span.irreflexive_iff.mpr same, walk, onPath⟩,
      .of_interleaved walk.interleaved⟩

private theorem WalkWithin.through {kept : Set Edge} {edge : Edge} (inKept : edge ∈ kept)
    {word other : List Label} {early late : List Edge}
    (before : WalkWithin kept (Padded word) ⟨first, edge.source⟩ early)
    (behind : WalkWithin kept (Padded other) ⟨edge.target, second⟩ late) :
    WalkWithin kept (Padded (word ++ edge.label :: other)) ⟨first, second⟩
      (early ++ edge :: late) where
  joins := before.joins.append ⟨rfl, behind.joins⟩
  inside := by
    simp only [List.forall_mem_append, List.forall_mem_cons]
    exact ⟨before.inside, inKept, behind.inside⟩
  accepted := by
    rw [wordOf_append]
    exact before.accepted.append (behind.accepted.append_left [edge.label])

end Joined

/-! ## Lowered edges -/

namespace Condensation

/-- The edges that lie below some edges of the condensation, and those of interleaved
walks. -/
def lowered (condensation : Condensation) (graph : Graph) (kept : Set Edge) : Set Edge :=
  {edge | edge ∈ graph.edgeSet ∧ condensation.liftEdge edge ∈ kept} ∪ graph.interleavedEdges

section Lowered

variable {condensation : Condensation} {graph : Graph} {kept : Set Edge}
  {first last start stop : Vertex} {path : List Edge}

theorem lowered_subset (condensation : Condensation) (graph : Graph) (kept : Set Edge) :
    condensation.lowered graph kept ⊆ graph.edgeSet :=
  Set.union_subset (fun _ => And.left) (interleavedEdges_subset graph)

variable (merges : condensation.Merges graph graph.MutuallyJoined)
  (inside : kept ⊆ condensation.graph.edgeSet)

include merges inside

/-- Below a walk lies a walk between any members of the groups at its ends, with a padded
word. -/
theorem exists_lowered_walk (joins : Joins start path stop) (within : ∀ edge ∈ path, edge ∈ kept)
    (atStart : graph.MutuallyJoined first start) (atStop : graph.MutuallyJoined stop last) :
    ∃ walk, WalkWithin (condensation.lowered graph kept) (Padded (wordOf path)) ⟨first, last⟩
      walk := by
  have equivalence := equivalence_mutuallyJoined graph
  induction path generalizing first start with
  | nil =>
      cases joins
      obtain ⟨walk, padding⟩ := exists_padding (equivalence.trans atStart atStop)
      exact ⟨walk, padding.mono Set.subset_union_right⟩
  | cons edge path induction =>
      obtain ⟨rfl, rest⟩ := joins
      obtain ⟨inKept, others⟩ := List.forall_mem_cons.mp within
      obtain ⟨original, inGraph, rfl⟩ := merges.lifted edge (inside inKept)
      obtain ⟨before, padding⟩ :=
        exists_padding (equivalence.trans atStart (merges.representative original.source))
      obtain ⟨behind, walk⟩ := induction rest others
        (equivalence.symm (merges.representative original.target))
      exact ⟨_, (padding.mono Set.subset_union_right).through (.inl ⟨inGraph, inKept⟩) walk⟩

theorem exists_lowered_walk_through {edge : Edge} (inGraph : edge ∈ graph.edgeSet)
    (joins : Joins start path stop) (within : ∀ edge ∈ path, edge ∈ kept)
    (onPath : condensation.liftEdge edge ∈ path) :
    ∃ walk, WalkWithin (condensation.lowered graph kept) (Padded (wordOf path)) ⟨start, stop⟩
      walk ∧ edge ∈ walk := by
  have equivalence := equivalence_mutuallyJoined graph
  obtain ⟨before, behind, rfl, beforeJoins, behindJoins⟩ := joins.split onPath
  obtain ⟨beforeInside, inKept, behindInside⟩ :
      (∀ other ∈ before, other ∈ kept) ∧ condensation.liftEdge edge ∈ kept ∧
        ∀ other ∈ behind, other ∈ kept := by
    simpa only [List.forall_mem_append, List.forall_mem_cons] using within
  obtain ⟨early, earlyWalk⟩ := exists_lowered_walk merges inside beforeJoins beforeInside
    (equivalence.refl start) (merges.representative edge.source)
  obtain ⟨late, lateWalk⟩ := exists_lowered_walk merges inside behindJoins behindInside
    (equivalence.symm (merges.representative edge.target)) (equivalence.refl stop)
  rw [wordOf_append]
  exact ⟨_, earlyWalk.through (.inl ⟨inGraph, inKept⟩) lateWalk, by simp⟩

end Lowered

end Condensation

/-! ## Sustained edges -/

/-- The words that are accepted without their padding. -/
def Acceptance.padded (accepts : Acceptance) : Acceptance :=
  fun family word => ∃ core, accepts family core ∧ Padded core word

section Sustained

variable {condensation : Condensation} {graph : Graph} {kept : Set Edge} {accepts : Acceptance}
  {span : Span} (merges : condensation.Merges graph graph.MutuallyJoined)
  (inside : kept ⊆ condensation.graph.edgeSet)

include merges inside

/-- What lies below sustained edges is sustained. -/
theorem Sustained.lowered (sustained : Sustained .taint accepts kept)
    (empty : ∀ family, accepts family []) :
    Sustained .taint accepts.padded (condensation.lowered graph kept) where
  canonical edge member := by
    rcases member with ⟨_, lifted⟩ | ⟨_, path, _, walk, onPath⟩
    · have canonical : CanonicalLabel (condensation.liftEdge edge).label :=
        sustained.canonical _ lifted
      exact canonical
    · exact walk.interleaved.canonical _ (List.mem_map.mpr ⟨edge, onPath, rfl⟩)
  supported family edge member := by
    rcases member with ⟨inGraph, lifted⟩ | ⟨span, path, irreflexive, walk, onPath⟩
    · obtain ⟨span, path, irreflexive, walk, onPath⟩ := sustained.supported family _ lifted
      obtain ⟨lower, lowerWalk, onLower⟩ := Condensation.exists_lowered_walk_through merges inside
        inGraph walk.joins walk.inside onPath
      exact ⟨span, lower, irreflexive, lowerWalk.imp fun _ padded => ⟨_, walk.accepted, padded⟩,
        onLower⟩
    · have among : ∀ other ∈ path, other ∈ condensation.lowered graph kept :=
        fun other onPath => .inr ⟨span, path, irreflexive, walk, onPath⟩
      have padding := Padded.of_interleaved walk.interleaved
      exact ⟨span, path, irreflexive, ⟨walk.joins, among, [], empty family, padding⟩, onPath⟩
  flows flow := by cases flow

/-- What is answered along edges is answered below them, between any members of the groups
at its ends. -/
theorem Answered.lowered (answered : Answered .taint accepts kept span) {first last : Vertex}
    (atStart : graph.MutuallyJoined first span.start)
    (atStop : graph.MutuallyJoined span.stop last) (different : first ≠ last) :
    Answered .taint accepts.padded (condensation.lowered graph kept) ⟨first, last⟩ where
  irreflexive := Span.irreflexive_iff.mpr different
  joined family := by
    obtain ⟨path, walk⟩ := answered.joined family
    obtain ⟨lower, lowerWalk⟩ := Condensation.exists_lowered_walk merges inside walk.joins
      walk.inside atStart atStop
    exact ⟨lower, lowerWalk.imp fun _ padded => ⟨_, walk.accepted, padded⟩⟩
  wrapped flow := by cases flow

end Sustained

/-! ## Refinement of the graph -/

/-- The spans between different vertices that the interleaved grammar answers over a
component. -/
def BracketComponent.interleavedSpans (component : BracketComponent) : SpanSet :=
  .ofList ((component.graph.spansOf (BracketLanguage.interleaved component.ids)).filter
    fun span => !span.isReflexive)

/-- A component condensed by its interleaved spans. -/
def BracketComponent.condensation (component : BracketComponent) : Condensation :=
  .ofKnown component.graph component.interleavedSpans

/-- The grammars count one class, or each id has a class of its own. -/
def Settings.IdsApart (settings : Settings) (ids : BracketIds) : Prop :=
  settings.mode = .augmented → settings.parityClasses ≤ 1 ∨
    ∀ family, (ids.ofFamily family).length ≤ settings.parityClasses

section Refinement

variable {component : BracketComponent} {settings : Settings} {piece : Graph} {span : Span}

theorem BracketComponent.mem_interleavedSpans (proper : component.Proper) :
    span ∈ component.interleavedSpans ↔
      span.start ≠ span.stop ∧ ∃ path, InterleavedWalk component.graph span path := by
  unfold interleavedSpans Graph.spansOf
  rw [Std.TreeSet.mem_ofList, List.contains_iff_mem, List.mem_filter, and_comm]
  rw [Bool.not_eq_true', Span.irreflexive_iff]
  refine and_congr_right fun different => ?_
  exact BracketLanguage.mem_spans_solve_interleaved proper
    (Span.irreflexive_iff.mpr different)

theorem BracketComponent.merges_condensation (proper : component.Proper) :
    component.condensation.Merges component.graph component.graph.MutuallyJoined := by
  refine Condensation.merges_ofKnown _ (equivalence_mutuallyJoined _) fun span member => ?_
  obtain ⟨known, both⟩ := List.mem_filter.mp member
  have back := (Bool.and_eq_true_iff.mp both).2
  have onward := (component.mem_interleavedSpans proper).mp (Std.TreeSet.mem_toList.mp known)
  have backward := (component.mem_interleavedSpans proper).mp (Std.TreeSet.contains_iff_mem.mp back)
  exact .inr ⟨onward.2, backward.2⟩

variable {condensation : Condensation}
  (merges : condensation.Merges component.graph component.graph.MutuallyJoined)
  (apart : settings.IdsApart component.ids)
  (fits : (settings.grammars settings.mode).WithinWord) (exact : component.Exact)
  (within : piece.edgeSet ⊆ condensation.graph.edgeSet)

include merges apart fits exact within

private theorem accepts_of_padded {family : BracketFamily} {word : List Label}
    (accepted : ((settings.grammars settings.mode).acceptance piece.matchedBrackets.ids).padded
      family word) (ids : BracketIds) :
    (settings.grammars settings.mode).Accepts family ids word := by
  obtain ⟨core, known, padded⟩ := accepted
  have pieceExact := piece.exact_matchedBrackets
  have inside := (Graph.matchedBrackets_subset piece).trans within
  have labels : ∀ label ∈ wordOf piece.matchedBrackets.graph.labelledEdges,
      label ∈ wordOf component.graph.labelledEdges := by
    intro label inWord
    obtain ⟨edge, member, rfl⟩ := List.mem_map.mp inWord
    obtain ⟨original, inGraph, rfl⟩ := merges.lifted edge (inside member)
    exact List.mem_map.mpr ⟨original, inGraph, rfl⟩
  have fewer := (pieceExact.distinct family.other).subperm
    (pieceExact.ids_subset_of_labels exact labels family.other)
  have few := fun augmented => (apart augmented).imp_right fun bound =>
    fewer.length_le.trans (bound family.other)
  exact (known.1.reclass fits known.2 pieceExact.bounded few ids).padded fits padded

/-- What a settled piece of the condensation answers, refinement of the component answers
between all members of the groups at its ends. -/
theorem Settles.mem_below (settles : Settles (settings.grammars settings.mode) settings.family
      none piece span)
    (taint : settings.family = .taint) {first last : Vertex}
    (atStart : first ∈ condensation.group span.start)
    (atStop : last ∈ condensation.group span.stop) (different : first ≠ last)
    (free : CollisionFree
      ((Session.ofSettings settings).mutualRefinement component.graph none).2.asked) :
    ⟨first, last⟩ ∈ ((Session.ofSettings settings).mutualRefinement component.graph none).1 := by
  have equivalence := equivalence_mutuallyJoined component.graph
  have inside := (Graph.matchedBrackets_subset piece).trans within
  have empty : ∀ family,
      (settings.grammars settings.mode).acceptance piece.matchedBrackets.ids family [] :=
    fun family => ⟨⟨.nil, fun _ => CancelsInWord.nil⟩, by simp⟩
  obtain ⟨sustained, answered, _⟩ := settles
  rw [taint] at sustained answered
  have below := sustained.lowered merges inside empty
  have answeredBelow := answered.lowered merges inside
    (equivalence.symm (merges.group _ _ atStart)) (merges.group _ _ atStop) different
  rw [← taint] at below answeredBelow
  refine (below.linked first).mem_mutualRefinement answeredBelow.linked
    (connectedAt_linkedEdges _ _) (fun graph _ _ family word accepted => ?_) exact.built
    ((linkedEdges_subset _ _).trans (Condensation.lowered_subset _ _ _)) free
  exact accepts_of_padded merges apart fits exact within accepted _

end Refinement

namespace Session

/-- What expanding the refinement of a condensed component answers, refinement of the
component answers as well, unless the interleaved grammar does or a round on the condensed
component that leaves no edge.  The classes tell the matched ids apart and fit into a machine
word. -/
theorem mem_allPairs_of_condensed {settings : Settings} (taint : settings.family = .taint)
    (base : Graph) (apart : settings.IdsApart base.matchedBrackets.ids)
    (fits : (settings.grammars settings.mode).WithinWord)
    (condensedFree : CollisionFree ((ofSettings settings).mutualRefinement
      base.matchedBrackets.condensation.graph none).2.asked)
    (free : CollisionFree ((ofSettings settings).mutualRefinement
      base.matchedBrackets.graph none).2.asked) :
    ∀ span ∈ base.matchedBrackets.condensation.expand
        ((ofSettings settings).mutualRefinement
          base.matchedBrackets.condensation.graph none).1.toList,
      span ∈ ((ofSettings settings).mutualRefinement base.matchedBrackets.graph none).1 ∨
        span ∈ base.matchedBrackets.interleavedSpans ∨
        ∃ answer, settings.Exhausted none base.matchedBrackets.condensation.graph answer ∧
          span.start ∈ base.matchedBrackets.condensation.group answer.start ∧
          span.stop ∈ base.matchedBrackets.condensation.group answer.stop := by
  have exact := base.exact_matchedBrackets
  have merges := base.matchedBrackets.merges_condensation exact.toProper
  generalize base.matchedBrackets.condensation = condensation at merges condensedFree ⊢
  generalize base.matchedBrackets = component at apart merges free exact ⊢
  intro span member
  rcases Condensation.mem_expand.mp member with
    ⟨answer, answered, atStart, atStop, different⟩ | ⟨vertex, _, startMember, stopMember, different⟩
  · rcases exhausted_or_settles (by simp) condensedFree (Std.TreeSet.mem_toList.mp answered) with
      exhausted | ⟨piece, within, settles⟩
    · exact .inr (.inr ⟨answer, exhausted, atStart, atStop⟩)
    · exact .inl (settles.mem_below merges apart fits exact within taint atStart atStop different
        free)
  · have equivalence := equivalence_mutuallyJoined component.graph
    have joined := equivalence.trans (equivalence.symm (merges.members _ _ startMember))
      (merges.members _ _ stopMember)
    have walks := (joined.resolve_left different).1
    exact .inr (.inl ((component.mem_interleavedSpans exact.toProper).mpr ⟨different, walks⟩))

/-- A cycle that is merged into one vertex.  The first parenthesis matches the edge from `1`
to `0`, which then leads from a vertex to itself. -/
def mergedCycle : List Edge :=
  [⟨3, 2, "op--0"⟩, ⟨2, 0, "ob--0"⟩, ⟨3, 2, "cb--0"⟩, ⟨0, 1, "normal"⟩, ⟨1, 0, "normal"⟩,
    ⟨1, 0, "cp--0"⟩]

private theorem condensed_mergedCycle :
    ⟨3, 2⟩ ∈ (Graph.ofEdges mergedCycle).matchedBrackets.condensation.expand
        ((ofSettings {}).mutualRefinement
          (Graph.ofEdges mergedCycle).matchedBrackets.condensation.graph none).1.toList ∧
      CollisionFree ((ofSettings {}).mutualRefinement
        (Graph.ofEdges mergedCycle).matchedBrackets.condensation.graph none).2.asked := by
  decide +kernel

private theorem refuted_mergedCycle :
    ⟨3, 2⟩ ∉ ((ofSettings {}).mutualRefinement
        (Graph.ofEdges mergedCycle).matchedBrackets.graph none).1 ∧
      ⟨3, 2⟩ ∉ (Graph.ofEdges mergedCycle).matchedBrackets.interleavedSpans ∧
      CollisionFree ((ofSettings {}).mutualRefinement
        (Graph.ofEdges mergedCycle).matchedBrackets.graph none).2.asked := by
  decide +kernel

/-- Behind what only the merged cycle answers is a round that leaves no edge. -/
theorem mem_allPairs_of_condensed_mergedCycle :
    ∃ answer, ({} : Settings).Exhausted none
        (Graph.ofEdges mergedCycle).matchedBrackets.condensation.graph answer ∧
      3 ∈ (Graph.ofEdges mergedCycle).matchedBrackets.condensation.group answer.start ∧
      2 ∈ (Graph.ofEdges mergedCycle).matchedBrackets.condensation.group answer.stop := by
  obtain ⟨expanded, condensedFree⟩ := condensed_mergedCycle
  obtain ⟨refuted, unknown, free⟩ := refuted_mergedCycle
  have apart : ({} : Settings).IdsApart (Graph.ofEdges mergedCycle).matchedBrackets.ids :=
    fun augmented => by cases augmented
  exact ((mem_allPairs_of_condensed rfl (.ofEdges mergedCycle) apart (fun _ => by decide)
    condensedFree free ⟨3, 2⟩ expanded).resolve_left refuted).resolve_left unknown

/-- Along the merged cycle no walk joins different vertices, so its edges support no answer.
The parenthesis is left without a partner, and a round that leaves no edge answers what the
next round on the graph itself refutes. -/
theorem not_condensed_subset_allPairs :
    ¬ ∀ (settings : Settings) (base : Graph), settings.IsValid → settings.family = .taint →
      base.Built →
      CollisionFree ((ofSettings settings).mutualRefinement
        base.matchedBrackets.condensation.graph none).2.asked →
      CollisionFree ((ofSettings settings).mutualRefinement
        base.matchedBrackets.graph none).2.asked →
      ∀ span ∈ base.matchedBrackets.condensation.expand
          ((ofSettings settings).mutualRefinement
            base.matchedBrackets.condensation.graph none).1.toList,
        span ∈ ((ofSettings settings).mutualRefinement base.matchedBrackets.graph none).1 ∨
          span ∈ base.matchedBrackets.interleavedSpans := by
  intro sound
  obtain ⟨expanded, condensedFree⟩ := condensed_mergedCycle
  obtain ⟨refuted, unknown, free⟩ := refuted_mergedCycle
  exact (sound {} (.ofEdges mergedCycle) (by decide) rfl (Graph.built_ofEdges _) condensedFree free
    ⟨3, 2⟩ expanded).elim refuted unknown

end Session

end GrammarReach
