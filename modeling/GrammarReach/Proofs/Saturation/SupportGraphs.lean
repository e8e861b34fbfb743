import GrammarReach.Proofs.Saturation.Pruning
import GrammarReach.Proofs.Saturation.Renamings
import GrammarReach.Proofs.Saturation.SegmentCounts
import GrammarReach.Proofs.Saturation.SupportedAnswers

/-!
# Solving again on what supports the answers

The edges that support the proper answers of a run make a smaller graph.  Epsilon edges
between different vertices never support an answer, and with fewer edges fewer segments
are linked, so a second run may find fewer answers than the first one.
-/

namespace GrammarReach

namespace Reachability

/-- The answers that do not stop where they start. -/
def properSpans (reachability : Reachability) : List Span :=
  reachability.spans.filter fun span => !span.isReflexive

/-- The graph of the edges that support the proper answers. -/
def supportGraph? (reachability : Reachability) : Option Graph :=
  reachability.provenance.map fun provenance =>
    .ofDistinctEdges (provenance.supportingEdges reachability.properSpans).toList

theorem mem_properSpans {reachability : Reachability} {span : Span} :
    span ∈ reachability.properSpans ↔
      span ∈ reachability.spans ∧ span.isReflexive = false := by
  simp [properSpans]

end Reachability

/-! ## Derivations over the edges that they use -/

section UsedEdges

variable {grammar : Grammar} {graph : Graph} {name : Nonterminal} {segments : List Span}
  {used : List Edge}

theorem Grammar.Derives.used_mem (derives : grammar.Derives graph name segments used) :
    ∀ edge ∈ used, edge ∈ graph.edges := by
  induction derives with
  | basic _ edgeMember _ => simpa using edgeMember
  | prepend _ _ _ edgeMember _ inside => simpa using ⟨edgeMember, inside⟩
  | append _ _ _ edgeMember _ inside => simpa using ⟨edgeMember, inside⟩
  | insert _ _ _ edgeMember _ _ inside => simpa using ⟨edgeMember, inside⟩
  | concatenate segments used _ _ _ _ _ inside =>
      intro edge member
      obtain ⟨position, below, listed⟩ := List.mem_flatMap.mp member
      have found := List.getElem?_eq_getElem (List.mem_range.mp below)
      exact inside position _ found edge listed

private theorem leastClosed_ofEdges_mono {inner outer : List Edge} (within : inner ⊆ outer) :
    grammar.leastClosed (.ofEdges inner) (fun _ => True) ⊆
      grammar.leastClosed (.ofEdges outer) fun _ => True := by
  refine Grammar.leastClosed_mono_edges (fun edge edgeMember => ?_) (fun _ _ => trivial)
  obtain ⟨origin, listed, generated⟩ := Graph.mem_ofEdges.mp edgeMember
  exact Graph.mem_ofEdges.mpr ⟨origin, within listed, generated⟩

theorem Grammar.Derives.mem_leastClosed_ofEdges
    (derives : grammar.Derives graph name segments used) :
    (name, segments) ∈ grammar.leastClosed (.ofEdges used) fun _ => True := by
  have head : ∀ {edge : Edge} {rest : List Edge},
      edge ∈ (Graph.ofEdges (edge :: rest)).edges := fun {edge rest} =>
    Graph.mem_ofEdges.mpr ⟨edge, List.mem_cons_self, Or.inl rfl⟩
  induction derives with
  | basic member _ label =>
      exact Grammar.mem_leastClosed_of_infers (.basic member head label) trivial
  | prepend member _ found _ _ body =>
      refine Grammar.mem_leastClosed_of_infers (.prepend member ?_ found head) trivial
      exact leastClosed_ofEdges_mono (List.subset_cons_self _ _) body
  | append member _ found _ _ body =>
      refine Grammar.mem_leastClosed_of_infers (.append member ?_ found head) trivial
      exact leastClosed_ofEdges_mono (List.subset_cons_self _ _) body
  | insert member _ inside _ label _ body =>
      refine Grammar.mem_leastClosed_of_infers (.insert member ?_ inside head label) trivial
      exact leastClosed_ofEdges_mono (List.subset_cons_self _ _) body
  | concatenate segments used member proper _ connects _ bodies =>
      refine Grammar.mem_leastClosed_of_infers
        (.concatenate segments member proper (fun position name found => ?_) connects) trivial
      have below := List.mem_range.mpr (List.getElem?_eq_some_iff.mp found).1
      have within : used position ⊆ (List.range _).flatMap used := fun edge listed =>
        List.mem_flatMap.mpr ⟨position, below, listed⟩
      exact leastClosed_ofEdges_mono within (bodies position name found)

theorem Grammar.Derives.label_mem (derives : grammar.Derives graph name segments used) :
    ∀ edge ∈ used, edge.label ∈ grammar.labels := by
  have labels : ∀ label, label ∈ grammar.labels ↔
      (∃ rule ∈ grammar.basic, rule.label = label) ∨
        (∃ rule ∈ grammar.prepend, rule.label = label) ∨
        (∃ rule ∈ grammar.append, rule.label = label) ∨
        ∃ rule ∈ grammar.insert, rule.label = label := by
    intro label
    simp [Grammar.labels]
  induction derives with
  | @basic rule edge member _ label =>
      intro other listed
      rw [List.mem_singleton.mp listed, labels]
      exact Or.inl ⟨rule, member, label.symm⟩
  | @prepend rule _ _ _ _ member _ _ _ _ inside =>
      refine List.forall_mem_cons.mpr ⟨?_, inside⟩
      rw [labels]
      exact Or.inr (Or.inl ⟨rule, member, rfl⟩)
  | @append rule _ _ _ _ member _ _ _ _ inside =>
      refine List.forall_mem_cons.mpr ⟨?_, inside⟩
      rw [labels]
      exact Or.inr (Or.inr (Or.inl ⟨rule, member, rfl⟩))
  | @insert rule _ _ _ member _ _ _ label _ inside =>
      refine List.forall_mem_cons.mpr ⟨?_, inside⟩
      rw [labels]
      exact Or.inr (Or.inr (Or.inr ⟨rule, member, label.symm⟩))
  | concatenate segments used _ _ _ _ _ inside =>
      intro edge member
      obtain ⟨position, below, listed⟩ := List.mem_flatMap.mp member
      have found := List.getElem?_eq_getElem (List.mem_range.mp below)
      exact inside position _ found edge listed

/-- Derivations stay derivations, with the same edges, in a graph with more edges. -/
theorem Grammar.Derives.mono {wider : Graph} (built : graph.Built) (widerBuilt : wider.Built)
    (edges : ∀ edge ∈ graph.edges, edge ∈ wider.edges)
    (derives : grammar.Derives graph name segments used) :
    grammar.Derives wider name segments used := by
  have follows : ∀ {name segments used}, grammar.Derives graph name segments used →
      wider.Follows segments := by
    intro name segments used derived
    have member := (Grammar.mem_leastClosed_iff_derives built).mpr ⟨used, derived⟩
    have kept := Grammar.leastClosed_mono_edges edges (fun _ => Graph.Linked.mono edges) member
    have inside := Grammar.spans_of_mem_leastClosed widerBuilt.closed kept
    exact (Graph.follows_iff_linked widerBuilt inside).mpr
      (Grammar.keeps_of_mem_leastClosed kept)
  induction derives with
  | basic member edgeMember label => exact .basic member (edges _ edgeMember) label
  | prepend member derived found edgeMember followed body =>
      exact .prepend member body found (edges _ edgeMember)
        (follows (.prepend member derived found edgeMember followed))
  | append member derived found edgeMember followed body =>
      exact .append member body found (edges _ edgeMember)
        (follows (.append member derived found edgeMember followed))
  | insert member derived inside edgeMember label followed body =>
      exact .insert member body inside (edges _ edgeMember) label
        (follows (.insert member derived inside edgeMember label followed))
  | concatenate segments used member proper derived connects followed bodies =>
      exact .concatenate segments used member proper bodies connects
        (follows (.concatenate segments used member proper derived connects followed))

end UsedEdges

/-! ## The support graph -/

section SupportGraph

variable {graph kept : Graph} {grammar : Grammar}

theorem exists_supportGraph (ends : SolveEnds graph grammar {}) :
    ∃ kept, (solve graph grammar {}).supportGraph? = some kept := by
  obtain ⟨provenance, known⟩ := exists_provenance_solve ends
  exact ⟨_, by rw [Reachability.supportGraph?, known, Option.map_some]⟩

theorem built_supportGraph (found : (solve graph grammar {}).supportGraph? = some kept) :
    kept.Built := by
  obtain ⟨provenance, _, rfl⟩ := Option.map_eq_some_iff.mp found
  exact Graph.built_ofDistinctEdges _

private theorem edges_supportGraph (built : graph.Built) (ends : SolveEnds graph grammar {})
    (found : (solve graph grammar {}).supportGraph? = some kept) :
    kept.LoopsOnly ∧ ∀ edge ∈ kept.edges, edge ∈ graph.edges := by
  obtain ⟨provenance, known, rfl⟩ := Option.map_eq_some_iff.mp found
  have supports : ∀ edge ∈ (provenance.supportingEdges
      (solve graph grammar {}).properSpans).toList, edge ∈ graph.labelledEdges :=
    fun edge listed => mem_labelledEdges_of_supports built ends known
      (Std.TreeSet.mem_toList.mp listed)
  constructor
  · exact Graph.loopsOnly_ofDistinctEdges fun edge listed =>
      (Graph.mem_labelledEdges.mp (supports edge listed)).2
  · intro edge member
    obtain ⟨origin, listed, generated⟩ := Graph.mem_ofDistinctEdges.mp member
    have inGraph := (Graph.mem_labelledEdges.mp (supports _ listed)).1
    rcases generated with rfl | rfl | rfl
    · exact inGraph
    · exact built.closed.loop_mem _ (built.closed.source_mem _ inGraph)
    · exact built.closed.loop_mem _ (built.closed.target_mem _ inGraph)

private theorem mem_edges_supportGraph (built : graph.Built)
    (ends : SolveEnds graph grammar {})
    (found : (solve graph grammar {}).supportGraph? = some kept) {span : Span}
    {used : List Edge} (derives : grammar.Derives graph Grammar.startName [span] used)
    (irreflexive : span.isReflexive = false) {edge : Edge} (member : edge ∈ used)
    (labelled : edge.isEpsilon = false) : edge ∈ kept.edges := by
  obtain ⟨provenance, known, rfl⟩ := Option.map_eq_some_iff.mp found
  have answer : span ∈ (solve graph grammar {}).properSpans :=
    Reachability.mem_properSpans.mpr
      ⟨(mem_spans_iff_derives built ends).mpr ⟨used, derives⟩, irreflexive⟩
  have supports :=
    mem_supportingEdges_of_derives built ends known derives irreflexive answer member labelled
  exact Graph.mem_ofDistinctEdges.mpr ⟨edge, Std.TreeSet.mem_toList.mpr supports, Or.inl rfl⟩

private theorem solveEnds_of_edges (built : graph.Built) (keptBuilt : kept.Built)
    (edges : ∀ edge ∈ kept.edges, edge ∈ graph.edges) (ends : SolveEnds graph grammar {}) :
    SolveEnds kept grammar {} := by
  obtain ⟨limit, short⟩ := (solveEnds_iff_bounded built {}).mp ends
  have shortKept : ∀ entry ∈ grammar.leastClosed kept kept.Linked, entry.2.length ≤ limit :=
    fun entry member => short entry
      (Grammar.leastClosed_mono_edges edges (fun _ => Graph.Linked.mono edges) member)
  exact solveEnds_of_bounded keptBuilt shortKept {}

/-- A vertex that the graph lacks moves to the start of an answer. -/
def Graph.moveTo (kept : Graph) (start vertex : Vertex) : Vertex :=
  if vertex ∈ kept.vertices then vertex else start

/-- The graph has the labelled edges of the pool, which has no epsilon edge besides loops. -/
private structure KeepsLabelled (pool kept : Graph) : Prop where
  loops : pool.LoopsOnly
  labelled : ∀ edge ∈ pool.edges, edge.isEpsilon = false → edge ∈ kept.edges
  closed : kept.Closed

section Moved

variable {pool : Graph} (keeps : KeepsLabelled pool kept)

include keeps

private theorem KeepsLabelled.spans {span : Span}
    (derived : (Grammar.startName, [span]) ∈ grammar.leastClosed pool fun _ => True)
    (irreflexive : span.isReflexive = false) : kept.Spans span := by
  have composes : pool.Composes fun other => other.start = other.stop ∨ kept.Spans other := by
    constructor
    · intro edge member
      cases labelled : edge.isEpsilon with
      | true => exact Or.inl (keeps.loops edge member labelled)
      | false =>
          have inKept := keeps.labelled edge member labelled
          exact Or.inr ⟨keeps.closed.source_mem edge inKept, keeps.closed.target_mem edge inKept⟩
    · rintro ⟨start, middle⟩ ⟨meeting, stop⟩ meets first second
      simp only [Graph.Spans] at meets first second ⊢
      subst meets
      rcases first with rfl | ⟨startKept, middleKept⟩
      · exact second
      · rcases second with rfl | ⟨_, stopKept⟩
        · exact Or.inr ⟨startKept, middleKept⟩
        · exact Or.inr ⟨startKept, stopKept⟩
  rcases Grammar.forall_span_of_mem_leastClosed composes derived span (by simp) with
    same | inKept
  · simp [Span.isReflexive, same] at irreflexive
  · exact inKept

private theorem KeepsLabelled.rename_mem {start : Vertex} (inside : start ∈ kept.vertices) :
    ∀ edge ∈ pool.edges, edge.rename (kept.moveTo start) ∈ kept.edges := by
  intro edge member
  cases labelled : edge.isEpsilon with
  | true =>
      have label : edge.label = Grammar.epsilon := by simpa [Edge.isEpsilon] using labelled
      have loop : edge.rename (kept.moveTo start) = .loopAt (kept.moveTo start edge.source) := by
        simp [Edge.rename, Edge.loopAt, keeps.loops edge member labelled, label]
      have moved : kept.moveTo start edge.source ∈ kept.vertices := by
        unfold Graph.moveTo
        split
        · assumption
        · exact inside
      rw [loop]
      exact keeps.closed.loop_mem _ moved
  | false =>
      have inKept := keeps.labelled edge member labelled
      have same : edge.rename (kept.moveTo start) = edge := by
        simp [Edge.rename, Graph.moveTo, keeps.closed.source_mem edge inKept,
          keeps.closed.target_mem edge inKept]
      rwa [same]

end Moved

private theorem mem_leastClosed_supportGraph (built : graph.Built)
    (ends : SolveEnds graph grammar {})
    (found : (solve graph grammar {}).supportGraph? = some kept) {span : Span}
    {used : List Edge} (derives : grammar.Derives graph Grammar.startName [span] used)
    (loops : ∀ edge ∈ used, edge.isEpsilon = true → edge.source = edge.target)
    (irreflexive : span.isReflexive = false) :
    (Grammar.startName, [span]) ∈ grammar.leastClosed kept fun _ => True := by
  have keeps : KeepsLabelled (.ofEdges used) kept := by
    refine ⟨fun edge member epsilon => ?_, fun edge member labelled => ?_,
      (built_supportGraph found).closed⟩
    · obtain ⟨origin, listed, rfl | rfl | rfl⟩ := Graph.mem_ofEdges.mp member
      · exact loops _ listed epsilon
      · rfl
      · rfl
    · have listed := Graph.mem_labelledEdges_ofEdges.mp
        (Graph.mem_labelledEdges.mpr ⟨member, labelled⟩)
      exact mem_edges_supportGraph built ends found derives irreflexive listed.1 labelled
  have derived := derives.mem_leastClosed_ofEdges
  have inKept := keeps.spans derived irreflexive
  have edges := keeps.rename_mem inKept.1
  have renamed : Entry.rename (kept.moveTo span.start) (Grammar.startName, [span]) ∈
      grammar.leastClosed kept fun _ => True :=
    Grammar.mem_leastClosed_rename edges (fun _ _ => trivial) derived
  have same : Entry.rename (kept.moveTo span.start) (Grammar.startName, [span]) =
      (Grammar.startName, [span]) := by
    simp [Entry.rename, Span.rename, Graph.moveTo, inKept.1, inKept.2]
  rwa [same] at renamed

/-- A second run on the edges that support the proper answers ends and finds nothing new.
When the concatenations keep the order of their segments there, it finds the proper answers
that can be derived without an epsilon edge between different vertices, hence all of them
when there is no such edge or the grammar does not mention epsilon. -/
theorem properSpans_solve_supportGraph (built : graph.Built)
    (ends : SolveEnds graph grammar {}) :
    ∃ kept, (solve graph grammar {}).supportGraph? = some kept ∧
      SolveEnds kept grammar {} ∧
      (∀ span ∈ (solve kept grammar {}).properSpans,
        span ∈ (solve graph grammar {}).properSpans) ∧
      (grammar.KeepsOrder kept →
        (∀ span, span ∈ (solve kept grammar {}).properSpans ↔
          span ∈ (solve graph grammar {}).properSpans ∧
            ∃ used, grammar.Derives graph Grammar.startName [span] used ∧
              ∀ edge ∈ used, edge.isEpsilon = true → edge.source = edge.target) ∧
        (graph.LoopsOnly ∨ Grammar.epsilon ∉ grammar.labels →
          ∀ span, span ∈ (solve kept grammar {}).properSpans ↔
            span ∈ (solve graph grammar {}).properSpans)) := by
  obtain ⟨kept, found⟩ := exists_supportGraph ends
  have keptBuilt := built_supportGraph found
  obtain ⟨keptLoops, edges⟩ := edges_supportGraph built ends found
  have keptEnds := solveEnds_of_edges built keptBuilt edges ends
  have again : ∀ span ∈ (solve kept grammar {}).properSpans,
      span ∈ (solve graph grammar {}).properSpans ∧
        ∃ used, grammar.Derives graph Grammar.startName [span] used ∧
          ∀ edge ∈ used, edge.isEpsilon = true → edge.source = edge.target := by
    intro span member
    obtain ⟨answer, irreflexive⟩ := Reachability.mem_properSpans.mp member
    obtain ⟨used, derives⟩ := (mem_spans_iff_derives keptBuilt keptEnds).mp answer
    have wider := derives.mono keptBuilt built edges
    exact ⟨Reachability.mem_properSpans.mpr
      ⟨(mem_spans_iff_derives built ends).mpr ⟨used, wider⟩, irreflexive⟩, used, wider,
        fun edge listed => keptLoops edge (derives.used_mem edge listed)⟩
  refine ⟨kept, found, keptEnds, fun span member => (again span member).1, fun order => ?_⟩
  have exact_again : ∀ span, span ∈ (solve kept grammar {}).properSpans ↔
      span ∈ (solve graph grammar {}).properSpans ∧
        ∃ used, grammar.Derives graph Grammar.startName [span] used ∧
          ∀ edge ∈ used, edge.isEpsilon = true → edge.source = edge.target := by
    refine fun span => ⟨again span, fun ⟨member, used, derives, loops⟩ => ?_⟩
    have irreflexive := (Reachability.mem_properSpans.mp member).2
    have free := mem_leastClosed_supportGraph built ends found derives loops irreflexive
    have linked := mem_leastClosed_of_linked order free (.singleton span)
    refine Reachability.mem_properSpans.mpr ⟨?_, irreflexive⟩
    exact (mem_spans_iff_derives keptBuilt keptEnds).mpr
      ((Grammar.mem_leastClosed_iff_derives keptBuilt).mp linked)
  refine ⟨exact_again, fun labelled span => ⟨fun member => (again span member).1, ?_⟩⟩
  intro member
  obtain ⟨used, derives⟩ :=
    (mem_spans_iff_derives built ends).mp (Reachability.mem_properSpans.mp member).1
  refine (exact_again span).mpr ⟨member, used, derives, fun edge listed epsilon => ?_⟩
  rcases labelled with loops | unread
  · exact loops edge (derives.used_mem edge listed) epsilon
  · have label : edge.label = Grammar.epsilon := by simpa [Edge.isEpsilon] using epsilon
    exact absurd (label ▸ derives.label_mem edge listed) unread

end SupportGraph

/-- The proper answers over the cycle are found again without the edge that leads into it. -/
theorem properSpans_solve_supportGraph_nestedPairs :
    cycleGraph.Built ∧ SolveEnds cycleGraph nestedPairs {} ∧
      (solve cycleGraph nestedPairs {}).properSpans = [⟨0, 2⟩, ⟨2, 0⟩] ∧
      ∃ kept, (solve cycleGraph nestedPairs {}).supportGraph? = some kept ∧
        kept.labelledEdges =
          [⟨0, 1, "a"⟩, ⟨1, 1, "b"⟩, ⟨1, 2, "c"⟩, ⟨2, 0, "d"⟩] ∧
        ∀ span, span ∈ (solve kept nestedPairs {}).properSpans ↔
          span ∈ (solve cycleGraph nestedPairs {}).properSpans := by
  have built : cycleGraph.Built := Graph.built_ofEdges _
  have ends := hasArities_nestedPairs.solveEnds built {}
  obtain ⟨kept, found, _, _, complete⟩ := properSpans_solve_supportGraph built ends
  have order := hasArities_nestedPairs.keepsOrder (by decide) kept
  have edges : ((solve cycleGraph nestedPairs {}).supportGraph?.map Graph.labelledEdges) =
      some [⟨0, 1, "a"⟩, ⟨1, 1, "b"⟩, ⟨1, 2, "c"⟩, ⟨2, 0, "d"⟩] := by decide +kernel
  rw [found, Option.map_some, Option.some.injEq] at edges
  refine ⟨built, ends, by decide +kernel, kept, found, edges, ?_⟩
  exact (complete order).2 (Or.inr (by decide +kernel))

/-! ## Answers that are not found again -/

/-- An edge without a label between two vertices. -/
def silentGraph : Graph :=
  .ofEdges [⟨0, 1, Grammar.epsilon⟩]

/-- Every epsilon edge is an answer. -/
def silentStep : Grammar where
  basic := [⟨"S", Grammar.epsilon⟩]

/-- An edge for `b`, an edge for `a` behind it, and a way back. -/
def returningGraph : Graph :=
  .ofEdges [⟨0, 1, "b"⟩, ⟨1, 2, "a"⟩, ⟨2, 0, "c"⟩]

/-- An epsilon edge between different vertices supports nothing, and without the way back
the segment for `b` does not follow the one for `a`. -/
theorem not_found_again :
    (silentGraph.Built ∧ SolveEnds silentGraph silentStep {} ∧
      (solve silentGraph silentStep {}).properSpans = [⟨0, 1⟩] ∧
      ((solve silentGraph silentStep {}).supportGraph?.map fun kept =>
        (solve kept silentStep {}).properSpans) = some []) ∧
    (returningGraph.Built ∧ SolveEnds returningGraph swappedPair {} ∧
      (solve returningGraph swappedPair {}).properSpans = [⟨0, 2⟩] ∧
      ((solve returningGraph swappedPair {}).supportGraph?.map fun kept =>
        (solve kept swappedPair {}).properSpans) = some []) := by
  refine ⟨⟨Graph.built_ofEdges _, ⟨3, by decide +kernel⟩, by decide +kernel, ?_⟩,
    ⟨Graph.built_ofEdges _, ⟨3, by decide +kernel⟩, by decide +kernel, ?_⟩⟩
  · decide +kernel
  · decide +kernel

end GrammarReach
