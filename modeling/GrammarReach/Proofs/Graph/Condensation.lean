import GrammarReach.Graph.Condensation
import GrammarReach.Proofs.Bracket.BalancedWalks
import GrammarReach.Proofs.Container.DisjointSets
import GrammarReach.Proofs.Graph.Numbering

/-!
# Condensation keeps walks

Whatever is merged, every vertex is in the group of its representative, so a walk
maps to a walk between representatives and its span comes back by expansion.  And every
edge between representatives comes from one between members of their groups, which are
related by any equivalence that relates what is known in both directions.
-/

namespace GrammarReach

namespace Condensation

/-! ## Groups and representatives -/

/-- The groups that are read off the roots found for elements. -/
private def groupsOf (found : List (Vertex × Vertex)) : List (Vertex × List Vertex) :=
  ((found.filter fun pair => pair.1 = pair.2).map (·.1)).map fun root =>
    (root, (found.filter (·.1 = root)).map (·.2))

private theorem mem_groupsOf {found : List (Vertex × Vertex)} {root : Vertex}
    {members : List Vertex} (member : (root, members) ∈ groupsOf found) :
    (root, root) ∈ found ∧ ∀ vertex, vertex ∈ members ↔ (root, vertex) ∈ found := by
  obtain ⟨other, isRoot, same⟩ := List.mem_map.mp member
  cases same
  obtain ⟨⟨first, second⟩, kept, rfl⟩ := List.mem_map.mp isRoot
  obtain ⟨inFound, equal⟩ := List.mem_filter.mp kept
  have same : first = second := by simpa using equal
  subst same
  exact ⟨inFound, fun vertex => by simp⟩

private theorem getElem?_representativesOf {groups : List (Vertex × List Vertex)}
    {vertex root : Vertex} (found : (representativesOf groups)[vertex]? = some root) :
    ∃ members, (root, members) ∈ groups ∧ vertex ∈ members := by
  have outer : ∀ (groups : List (Vertex × List Vertex)) (start : Std.TreeMap Vertex Vertex),
      (groups.foldl (fun found group =>
        group.2.foldl (fun found member => found.insert member group.1) found)
          start)[vertex]? = some root →
      start[vertex]? = some root ∨ ∃ members, (root, members) ∈ groups ∧ vertex ∈ members := by
    intro groups
    induction groups with
    | nil => exact fun start found => Or.inl found
    | cons group groups induction =>
        intro start found
        rcases induction _ found with early | ⟨members, among, inside⟩
        · rw [getElem?_foldl_insert_same] at early
          split at early
          · rename_i inside
            cases early
            exact Or.inr ⟨group.2, .head _, inside⟩
          · exact Or.inl early
        · exact Or.inr ⟨members, .tail _ among, inside⟩
  exact (outer groups ∅ found).resolve_left (by simp)

private theorem mem_representativesOf {groups : List (Vertex × List Vertex)}
    {vertex root : Vertex} {members : List Vertex} (among : (root, members) ∈ groups)
    (inside : vertex ∈ members) : vertex ∈ representativesOf groups := by
  have inner : ∀ (members : List Vertex) (start : Std.TreeMap Vertex Vertex) (other : Vertex),
      vertex ∈ members.foldl (fun found member => found.insert member other) start ↔
        vertex ∈ members ∨ vertex ∈ start := by
    intro members start other
    rw [← Std.TreeMap.isSome_getElem?_iff_mem, ← Std.TreeMap.isSome_getElem?_iff_mem,
      getElem?_foldl_insert_same]
    split
    · simp_all
    · simp_all
  have outer : ∀ (groups : List (Vertex × List Vertex)) (start : Std.TreeMap Vertex Vertex),
      (vertex ∈ start ∨ (root, members) ∈ groups) →
      vertex ∈ groups.foldl (fun found group =>
        group.2.foldl (fun found member => found.insert member group.1) found) start := by
    intro groups
    induction groups with
    | nil => simp
    | cons group groups induction =>
        rintro start (early | first)
        · exact induction _ (Or.inl ((inner _ _ _).mpr (Or.inr early)))
        · rcases List.mem_cons.mp first with rfl | later
          · exact induction _ (Or.inl ((inner _ _ _).mpr (Or.inl inside)))
          · exact induction _ (Or.inr later)
  exact outer groups ∅ (Or.inr among)

private theorem getElem?_foldl_groups (groups : List (Vertex × List Vertex)) (root : Vertex) :
    (∃ members, (root, members) ∈ groups ∧
      (groups.foldl (fun found group => found.insert group.1 group.2)
        (∅ : Std.TreeMap Vertex (List Vertex)))[root]? = some members) ∨
    ((∀ members, (root, members) ∉ groups) ∧
      (groups.foldl (fun found group => found.insert group.1 group.2)
        (∅ : Std.TreeMap Vertex (List Vertex)))[root]? = none) := by
  have general : ∀ (groups : List (Vertex × List Vertex))
      (start : Std.TreeMap Vertex (List Vertex)),
      (∃ members, (root, members) ∈ groups ∧
        (groups.foldl (fun found group => found.insert group.1 group.2) start)[root]? =
          some members) ∨
      ((∀ members, (root, members) ∉ groups) ∧
        (groups.foldl (fun found group => found.insert group.1 group.2) start)[root]? =
          start[root]?) := by
    intro groups
    induction groups with
    | nil => exact fun start => Or.inr ⟨by simp, rfl⟩
    | cons group groups induction =>
        intro start
        rw [List.foldl_cons]
        rcases induction (start.insert group.1 group.2) with ⟨members, among, found⟩ | ⟨none, found⟩
        · exact Or.inl ⟨members, .tail _ among, found⟩
        · rw [found, Std.TreeMap.getElem?_insert]
          by_cases same : group.1 = root
          · refine Or.inl ⟨group.2, ?_, by simp [same]⟩
            rw [← same]
            exact .head _
          · refine Or.inr ⟨fun members among => ?_, by simp [same]⟩
            rcases List.mem_cons.mp among with rfl | later
            · exact same rfl
            · exact none members later
  simpa using general groups ∅

private theorem within_joinEnds {sets : DisjointSets Vertex} {related : Vertex → Vertex → Prop}
    (within : sets.Within related) (equivalence : Equivalence related) {span : Span}
    (joined : related span.start span.stop) : (joinEnds sets span).Within related := by
  unfold joinEnds
  obtain ⟨startJoined, first⟩ := within.find equivalence span.start
  generalize sets.find span.start = startFound at startJoined first ⊢
  obtain ⟨startRoot, afterStart⟩ := startFound
  cases startRoot with
  | none => exact first
  | some startRoot =>
      obtain ⟨stopJoined, second⟩ := first.find equivalence span.stop
      simp only at stopJoined second ⊢
      generalize afterStart.find span.stop = stopFound at stopJoined second ⊢
      obtain ⟨stopRoot, afterStop⟩ := stopFound
      cases stopRoot with
      | none => exact second
      | some stopRoot =>
          simp only
          split
          · exact second
          · have roots : related startRoot stopRoot :=
              equivalence.trans (equivalence.symm (startJoined _ rfl))
                (equivalence.trans joined (stopJoined _ rfl))
            exact second.union equivalence roots

private theorem within_merged (graph : Graph) {known : SpanSet}
    {related : Vertex → Vertex → Prop} (equivalence : Equivalence related)
    (links : ∀ span ∈ mutualSpans known, related span.start span.stop) :
    ((mutualSpans known).foldl joinEnds (apart graph)).Within related := by
  have apart : (apart graph).Within related :=
    List.foldlRecOn (motive := fun sets : DisjointSets Vertex => sets.Within related)
      graph.vertexList _ (DisjointSets.within_empty related) fun _ within vertex _ =>
        within.insert equivalence vertex
  exact List.foldlRecOn (motive := fun sets : DisjointSets Vertex => sets.Within related)
    (mutualSpans known) _ apart
    fun _ within span member => within_joinEnds within equivalence (links span member)

private theorem exists_groups (graph : Graph) (known : SpanSet) :
    ∃ found : List (Vertex × Vertex),
      (ofKnown graph known).representatives = representativesOf (groupsOf found) ∧
      (ofKnown graph known).groups = (groupsOf found).foldl
        (fun found group => found.insert group.1 group.2) ∅ ∧
      ∀ related : Vertex → Vertex → Prop, Equivalence related →
        (∀ span ∈ mutualSpans known, related span.start span.stop) →
        ∀ pair ∈ found, related pair.1 pair.2 :=
  ⟨_, rfl, rfl, fun _ equivalence links =>
    (within_merged graph equivalence links).findAll equivalence _⟩

private theorem mem_group_representative {condensation : Condensation}
    {found : List (Vertex × Vertex)}
    (representatives : condensation.representatives = representativesOf (groupsOf found))
    (groups : condensation.groups = (groupsOf found).foldl
      (fun found group => found.insert group.1 group.2) ∅) (vertex : Vertex) :
    vertex ∈ condensation.group (condensation.representative vertex) := by
  unfold group representative
  rw [representatives, groups, Std.TreeMap.getD_eq_getD_getElem?,
    Std.TreeMap.getD_eq_getD_getElem?]
  cases placed : (representativesOf (groupsOf found))[vertex]? with
  | some root =>
      obtain ⟨members, among, inside⟩ := getElem?_representativesOf placed
      rcases getElem?_foldl_groups (groupsOf found) root with ⟨listed, other, known⟩ | ⟨none, _⟩
      · rw [Option.getD_some, known, Option.getD_some]
        exact ((mem_groupsOf other).2 vertex).mpr (((mem_groupsOf among).2 vertex).mp inside)
      · exact absurd among (none members)
  | none =>
      rcases getElem?_foldl_groups (groupsOf found) vertex with ⟨members, among, _⟩ | ⟨_, missing⟩
      · have inside := ((mem_groupsOf among).2 vertex).mpr (mem_groupsOf among).1
        have present := mem_representativesOf among inside
        rw [Std.TreeMap.mem_iff_isSome_getElem?, placed] at present
        cases present
      · rw [Option.getD_none, missing]
        exact List.mem_singleton.mpr rfl

/-- An edge between the representatives of its ends. -/
def liftEdge (condensation : Condensation) (edge : Edge) : Edge :=
  ⟨condensation.representative edge.source, condensation.representative edge.target,
    edge.label⟩

/-- The condensation holds every labelled edge between representatives, and every
vertex is in the group of its own. -/
structure Covers (condensation : Condensation) (graph : Graph) : Prop where
  built : condensation.graph.Built
  lifts : ∀ edge ∈ graph.labelledEdges,
    condensation.liftEdge edge ∈ condensation.graph.labelledEdges
  member : ∀ vertex, vertex ∈ condensation.group (condensation.representative vertex)

theorem graph_ofKnown (graph : Graph) (known : SpanSet) :
    (ofKnown graph known).graph =
      .ofDistinctEdges (graph.labelledEdges.map (ofKnown graph known).liftEdge) :=
  rfl

theorem loopsOnly_ofKnown (graph : Graph) (known : SpanSet) :
    (ofKnown graph known).graph.LoopsOnly := by
  rw [graph_ofKnown]
  refine Graph.loopsOnly_ofDistinctEdges fun lifted member => ?_
  obtain ⟨edge, labelled, rfl⟩ := List.mem_map.mp member
  exact (Graph.mem_labelledEdges.mp labelled).2

theorem covers_ofKnown (graph : Graph) (known : SpanSet) : (ofKnown graph known).Covers graph := by
  obtain ⟨found, representatives, groups, _⟩ := exists_groups graph known
  have same := graph_ofKnown graph known
  generalize ofKnown graph known = condensation at representatives groups same ⊢
  refine ⟨?_, ?_, mem_group_representative representatives groups⟩
  · rw [same]
    exact Graph.built_ofDistinctEdges _
  · intro edge member
    rw [same, Graph.mem_labelledEdges_ofDistinctEdges]
    exact ⟨List.mem_map_of_mem member, (Graph.mem_labelledEdges.mp member).2⟩

/-- Every edge of the condensation comes from the graph, and every group is related to its
representative. -/
structure Merges (condensation : Condensation) (graph : Graph)
    (related : Vertex → Vertex → Prop) : Prop where
  lifted : ∀ edge ∈ condensation.graph.labelledEdges,
    ∃ original ∈ graph.labelledEdges, condensation.liftEdge original = edge
  representative : ∀ vertex, related (condensation.representative vertex) vertex
  group : ∀ vertex, ∀ other ∈ condensation.group vertex, related vertex other
  members : ∀ vertex, ∀ other ∈ condensation.members vertex, related vertex other

/-- What is known in both directions is all that is merged. -/
theorem merges_ofKnown (graph : Graph) {known : SpanSet} {related : Vertex → Vertex → Prop}
    (equivalence : Equivalence related)
    (links : ∀ span ∈ mutualSpans known, related span.start span.stop) :
    (ofKnown graph known).Merges graph related := by
  obtain ⟨found, representatives, groups, joined⟩ := exists_groups graph known
  have pairs := joined related equivalence links
  have same := graph_ofKnown graph known
  generalize ofKnown graph known = condensation at representatives groups same ⊢
  have listed : ∀ {vertex members}, condensation.groups[vertex]? = some members →
      ∀ other ∈ members, related vertex other := by
    intro vertex members known other inside
    rw [groups] at known
    rcases getElem?_foldl_groups (groupsOf found) vertex with ⟨_, among, same⟩ | ⟨_, none⟩
    · cases same.symm.trans known
      exact pairs _ (((mem_groupsOf among).2 other).mp inside)
    · cases none.symm.trans known
  refine ⟨fun edge member => ?_, fun vertex => ?_, fun vertex other inside => ?_,
    fun vertex other inside => ?_⟩
  · rw [same, Graph.mem_labelledEdges_ofDistinctEdges] at member
    exact List.mem_map.mp member.1
  · unfold representative
    rw [representatives, Std.TreeMap.getD_eq_getD_getElem?]
    cases placed : (representativesOf (groupsOf found))[vertex]? with
    | none => exact equivalence.refl vertex
    | some root =>
        obtain ⟨members, among, inside⟩ := getElem?_representativesOf placed
        exact pairs _ (((mem_groupsOf among).2 vertex).mp inside)
  · unfold group at inside
    rw [Std.TreeMap.getD_eq_getD_getElem?] at inside
    cases known : condensation.groups[vertex]? with
    | none =>
        rw [known, Option.getD_none, List.mem_singleton] at inside
        exact inside ▸ equivalence.refl vertex
    | some members =>
        rw [known, Option.getD_some] at inside
        exact listed known other inside
  · unfold members at inside
    rw [Std.TreeMap.getD_eq_getD_getElem?] at inside
    cases known : condensation.groups[vertex]? with
    | none =>
        rw [known, Option.getD_none] at inside
        cases inside
    | some members =>
        rw [known, Option.getD_some] at inside
        exact listed known other inside

section Covers

variable {condensation : Condensation} {graph : Graph}

private theorem mem_members_of_merged (covers : condensation.Covers graph)
    {first second : Vertex} (different : first ≠ second)
    (merged : condensation.representative first = condensation.representative second) :
    first ∈ condensation.members (condensation.representative first) ∧
      second ∈ condensation.members (condensation.representative first) := by
  have firstMember := covers.member first
  have secondMember := covers.member second
  rw [← merged] at secondMember
  unfold group at firstMember secondMember
  unfold members
  rw [Std.TreeMap.getD_eq_getD_getElem?] at firstMember secondMember ⊢
  cases listed : condensation.groups[condensation.representative first]? with
  | some members =>
      rw [listed] at firstMember secondMember
      exact ⟨firstMember, secondMember⟩
  | none =>
      rw [listed, Option.getD_none, List.mem_singleton] at firstMember secondMember
      exact absurd (firstMember.trans secondMember.symm) different

/-! ## Walks between representatives -/

/-- A balanced walk maps to one between representatives. -/
theorem Covers.lift_walk (covers : condensation.Covers graph) {analysis : AnalysisFamily}
    {span : Span} {path : List Edge} (walk : BalancedWalk analysis graph span path) :
    BalancedWalk analysis condensation.graph (condensation.lift span)
      (path.map condensation.liftEdge) := by
  have sameWord : wordOf (path.map condensation.liftEdge) = wordOf path := by
    simp [wordOf, liftEdge]
  refine ⟨⟨walk.joins.map condensation.representative, ?_, ?_⟩, ?_, ?_⟩
  · intro lifted member
    obtain ⟨edge, onPath, rfl⟩ := List.mem_map.mp member
    exact covers.lifts edge (walk.inside edge onPath)
  · rw [sameWord]
    exact walk.canonical
  · rw [sameWord]
    exact walk.nested
  · rw [sameWord]
    exact walk.flow

/-! ## Expansion -/

theorem mem_spansBetween {starts stops : List Vertex} {span : Span} :
    span ∈ spansBetween starts stops ↔
      span.start ∈ starts ∧ span.stop ∈ stops ∧ span.start ≠ span.stop := by
  obtain ⟨first, second⟩ := span
  simp only [spansBetween, List.mem_flatMap, List.mem_map, List.mem_filter, decide_eq_true_eq,
    Span.mk.injEq]
  constructor
  · rintro ⟨start, startMember, stop, ⟨stopMember, different⟩, rfl, rfl⟩
    exact ⟨startMember, stopMember, different⟩
  · rintro ⟨startMember, stopMember, different⟩
    exact ⟨first, startMember, second, ⟨stopMember, different⟩, rfl, rfl⟩

theorem mem_expand {condensation : Condensation} {spans : List Span} {span : Span} :
    span ∈ condensation.expand spans ↔
      (∃ answer ∈ spans, span.start ∈ condensation.group answer.start ∧
        span.stop ∈ condensation.group answer.stop ∧ span.start ≠ span.stop) ∨
      ∃ representative ∈ condensation.graph.vertexList,
        span.start ∈ condensation.members representative ∧
        span.stop ∈ condensation.members representative ∧ span.start ≠ span.stop := by
  unfold expand
  rw [Std.TreeSet.mem_ofList, List.contains_iff_mem, List.mem_append, List.mem_flatMap,
    List.mem_flatMap]
  simp only [mem_spansBetween]

/-- The span of a walk comes back by expansion, if the span between the
representatives is among the expanded ones. -/
theorem Covers.mem_expand_of_walk (covers : condensation.Covers graph) {span : Span}
    {path : List Edge} {spans : List Span} (walk : CanonicalWalk graph span path)
    (irreflexive : span.isReflexive = false)
    (answered : (condensation.lift span).isReflexive = false → condensation.lift span ∈ spans) :
    span ∈ condensation.expand spans := by
  have different := Span.irreflexive_iff.mp irreflexive
  rw [mem_expand]
  by_cases merged : condensation.representative span.start =
      condensation.representative span.stop
  · right
    obtain ⟨startMember, stopMember⟩ := mem_members_of_merged covers different merged
    refine ⟨condensation.representative span.start, ?_, startMember, stopMember, different⟩
    cases path with
    | nil => exact absurd walk.joins different
    | cons edge path =>
        have lifted := covers.lifts edge (walk.inside edge (by simp))
        rw [Graph.mem_vertexList, ← walk.joins.1]
        exact covers.built.closed.source_mem _ (Graph.mem_labelledEdges.mp lifted).1
  · left
    have member := answered (Span.irreflexive_iff.mpr merged)
    exact ⟨_, member, covers.member span.start, covers.member span.stop, different⟩

end Covers

end Condensation

end GrammarReach
