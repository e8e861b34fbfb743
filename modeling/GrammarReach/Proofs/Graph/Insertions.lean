import GrammarReach.Proofs.Graph.Indices
import Mathlib.Data.List.Nodup

/-!
# What a graph answers about its edges

A graph keeps the same edges in several indices.  After any edges were inserted, whether or
not repeats were to be left out, each of its answers can be read off the row of edges.
-/

namespace GrammarReach

namespace Keyed

variable {κ β : Type} [Ord κ] [Std.TransOrd κ] [Std.LawfulEqOrd κ]

theorem mem_keys_push {keyed : Keyed κ β} {key other : κ} {value : β} :
    other ∈ (keyed.push key value).keys ↔ other = key ∨ other ∈ keyed.keys := by
  simp only [keys, Std.TreeMap.mem_keys, push]
  by_cases same : key = other
  · subst same
    simp
  · have different : ¬ other = key := fun equality => same equality.symm
    simp [Std.TreeMap.mem_alter, same, different]

theorem nodup_keys (keyed : Keyed κ β) : keyed.keys.Nodup := by
  refine (Std.TreeMap.distinct_keys (t := keyed.rows)).imp fun {first second} apart same => ?_
  exact apart (Std.LawfulEqOrd.compare_eq_iff_eq.mpr same)

end Keyed

private theorem perm_flatMap_filter {α κ : Type} [DecidableEq κ] (key : α → κ) {keys : List κ}
    (distinct : keys.Nodup) {items : List α} (known : ∀ item ∈ items, key item ∈ keys) :
    items.Perm (keys.flatMap fun other => items.filter fun item => key item = other) := by
  classical
  induction keys generalizing items with
  | nil =>
      have none : items = [] := List.eq_nil_iff_forall_not_mem.mpr fun item member =>
        List.not_mem_nil (known item member)
      simp [none]
  | cons first keys induction =>
      obtain ⟨fresh, distinct⟩ := List.nodup_cons.mp distinct
      have apart : ∀ other ∈ keys,
          ((items.filter fun item => !decide (key item = first)).filter fun item =>
            key item = other) = items.filter fun item => key item = other := by
        intro other member
        have different : other ≠ first := fun same => fresh (same ▸ member)
        rw [List.filter_filter]
        refine List.filter_congr fun item _ => ?_
        by_cases found : key item = other
        · simp [found, different]
        · simp [found]
      have rest := @induction distinct (items.filter fun item => !decide (key item = first))
        fun item member => by
          obtain ⟨inItems, other⟩ := List.mem_filter.mp member
          exact (List.mem_cons.mp (known item inItems)).resolve_left (by simpa using other)
      rw [List.flatMap_congr apart] at rest
      rw [List.flatMap_cons]
      exact (List.filter_append_perm _ items).symm.trans (rest.append_left _)

/-- A request to put an edge into a graph. -/
inductive Insertion where
  /-- The edge is added. -/
  | always (edge : Edge)
  /-- The edge is added unless the graph has it. -/
  | whenNew (edge : Edge)
deriving DecidableEq, Repr

namespace Graph

def insert (graph : Graph) : Insertion → Graph
  | .always edge => graph.add edge
  | .whenNew edge => graph.addNew edge

/-- The graph that some insertions make of the empty graph. -/
def afterInsertions (insertions : List Insertion) : Graph :=
  insertions.foldl insert empty

/-- The edges that adding one brings into a graph: the edge, and the loops of its ends that are
new vertices. -/
def broughtBy (graph : Graph) (edge : Edge) : List Edge :=
  edge :: ((if edge.source ∈ graph.vertices then [] else [.loopAt edge.source]) ++
    if edge.target ∈ graph.vertices ∨ edge.target = edge.source then []
    else [.loopAt edge.target])

/-- The edges that an insertion brings into a graph. -/
def inserted (graph : Graph) : Insertion → List Edge
  | .always edge => graph.broughtBy edge
  | .whenNew edge => if edge ∈ graph.edges then [] else graph.broughtBy edge

theorem Indexed.toList_edges_insert {graph : Graph} (indexed : graph.Indexed)
    (insertion : Insertion) :
    (graph.insert insertion).edges.toList = graph.edges.toList ++ graph.inserted insertion := by
  cases insertion with
  | always edge => exact toList_edges_add graph edge
  | whenNew edge =>
      simp only [insert, inserted, addNew, insertNew, indexed.containsEdge_iff]
      split
      · exact (List.append_nil _).symm
      · exact toList_edges_add graph edge

theorem built_afterInsertions (insertions : List Insertion) :
    (afterInsertions insertions).Built := by
  have general : ∀ graph : Graph, graph.Built → (insertions.foldl insert graph).Built := by
    induction insertions with
    | nil => exact fun _ built => built
    | cons insertion insertions induction =>
        intro graph built
        cases insertion with
        | always edge => exact induction _ (.add edge built)
        | whenNew edge => exact induction _ (built.addNew edge)
  exact general .empty .empty

/-! ## Labels -/

/-- The labels with a row are those of the edges. -/
def ListsLabels (graph : Graph) : Prop :=
  ∀ label, label ∈ graph.labels ↔ ∃ edge ∈ graph.edges, edge.label = label

theorem ListsLabels.append {graph : Graph} (lists : graph.ListsLabels) (edge : Edge) :
    (graph.append edge).ListsLabels := by
  intro label
  refine Keyed.mem_keys_push.trans ((or_congr_right (lists label)).trans ?_)
  simp only [Graph.append, Array.mem_push]
  constructor
  · rintro (rfl | ⟨other, member, same⟩)
    · exact ⟨edge, Or.inr rfl, rfl⟩
    · exact ⟨other, Or.inl member, same⟩
  · rintro ⟨other, member | rfl, same⟩
    · exact Or.inr ⟨other, member, same⟩
    · exact Or.inl same.symm

theorem ListsLabels.register {graph : Graph} (lists : graph.ListsLabels) (vertex : Vertex) :
    (graph.register vertex).ListsLabels := by
  unfold Graph.register
  split
  · exact lists
  · exact lists.append (.loopAt vertex)

theorem Built.listsLabels {graph : Graph} (built : graph.Built) : graph.ListsLabels := by
  induction built with
  | empty =>
      intro label
      simp [Graph.labels, Graph.empty, Keyed.keys, Keyed.empty]
  | add edge _ induction => exact ((induction.append edge).register _).register _

/-! ## Answers -/

/-- Every index of the graph answers as the row of edges does. -/
structure AnswersAsListed (graph : Graph) : Prop where
  targets : ∀ vertex label, (graph.targets (.at vertex) label).toList =
    (graph.edges.toList.filter fun edge => edge.source = vertex ∧ edge.label = label).map
      Edge.target
  sources : ∀ vertex label, (graph.sources (.at vertex) label).toList =
    (graph.edges.toList.filter fun edge => edge.target = vertex ∧ edge.label = label).map
      Edge.source
  allTargets : ∀ label, (graph.targets .any label).toList =
    (graph.edges.toList.filter fun edge => edge.label = label).map Edge.target
  allSources : ∀ label, (graph.sources .any label).toList =
    (graph.edges.toList.filter fun edge => edge.label = label).map Edge.source
  edgesLabelled : ∀ label, (graph.edgesLabelled label).toList =
    graph.edges.toList.filter fun edge => edge.label = label
  successors : ∀ vertex, (graph.successors vertex).toList.Perm
    ((graph.edges.toList.filter fun edge => edge.source = vertex).map Edge.target)
  predecessors : ∀ vertex, (graph.predecessors vertex).toList.Perm
    ((graph.edges.toList.filter fun edge => edge.target = vertex).map Edge.source)
  /-- The successors are the targets over all labels. -/
  successorsByLabel : ∀ vertex, (graph.successors vertex).toList.Perm
    (graph.labels.flatMap fun label => (graph.targets (.at vertex) label).toList)
  /-- The predecessors are the sources over all labels. -/
  predecessorsByLabel : ∀ vertex, (graph.predecessors vertex).toList.Perm
    (graph.labels.flatMap fun label => (graph.sources (.at vertex) label).toList)
  nodup_labels : graph.labels.Nodup
  mem_labels : ∀ label, label ∈ graph.labels ↔ ∃ edge ∈ graph.edges, edge.label = label
  containsEdge : ∀ edge, graph.containsEdge edge = true ↔ edge ∈ graph.edges
  containsVertex : ∀ vertex, graph.containsVertex vertex = true ↔
    ∃ edge ∈ graph.edges, vertex = edge.source ∨ vertex = edge.target
  /-- No vertex is without its loop. -/
  loops : ∀ vertex, graph.containsVertex vertex = true →
    1 ≤ graph.edges.toList.count (.loopAt vertex)

section Answers

variable {graph : Graph}

theorem Indexed.toList_targets (indexed : graph.Indexed) (vertex : Vertex) (label : Label) :
    (graph.targets (.at vertex) label).toList =
      (graph.edges.toList.filter fun edge => edge.source = vertex ∧ edge.label = label).map
        Edge.target := by
  refine (indexed.outgoing ⟨vertex, label⟩).trans (congrArg _ ?_)
  exact List.filter_congr fun edge _ => by simp only [Junction.mk.injEq]

theorem Indexed.toList_sources (indexed : graph.Indexed) (vertex : Vertex) (label : Label) :
    (graph.sources (.at vertex) label).toList =
      (graph.edges.toList.filter fun edge => edge.target = vertex ∧ edge.label = label).map
        Edge.source := by
  refine (indexed.incoming ⟨vertex, label⟩).trans (congrArg _ ?_)
  exact List.filter_congr fun edge _ => by simp only [Junction.mk.injEq]

private theorem perm_byLabel (lists : graph.ListsLabels) (test : Edge → Prop)
    [DecidablePred test] (away : Edge → Vertex) :
    ((graph.edges.toList.filter fun edge => test edge).map away).Perm
      (graph.labels.flatMap fun label =>
        (graph.edges.toList.filter fun edge => test edge ∧ edge.label = label).map away) := by
  have known : ∀ edge ∈ graph.edges.toList.filter fun edge => test edge,
      edge.label ∈ graph.labels := fun edge member =>
    (lists edge.label).mpr ⟨edge, by simpa using (List.mem_filter.mp member).1, rfl⟩
  have sorted := (perm_flatMap_filter Edge.label graph.labelled.nodup_keys known).map away
  rw [List.map_flatMap] at sorted
  refine sorted.trans (.of_eq (List.flatMap_congr fun label _ => ?_))
  rw [List.filter_filter]
  refine congrArg _ (List.filter_congr fun edge _ => ?_)
  rw [Bool.decide_and, Bool.and_comm]

theorem Closed.mem_vertices_iff (closed : graph.Closed) {vertex : Vertex} :
    vertex ∈ graph.vertices ↔
      ∃ edge ∈ graph.edges, vertex = edge.source ∨ vertex = edge.target := by
  constructor
  · intro member
    exact ⟨_, closed.loop_mem vertex member, Or.inl rfl⟩
  · rintro ⟨edge, member, rfl | rfl⟩
    · exact closed.source_mem edge member
    · exact closed.target_mem edge member

theorem Built.answersAsListed (built : graph.Built) : graph.AnswersAsListed where
  targets := built.indexed.toList_targets
  sources := built.indexed.toList_sources
  allTargets label := by
    rw [Graph.targets, Array.toList_map, Graph.edgesLabelled, built.indexed.labelled]
  allSources label := by
    rw [Graph.sources, Array.toList_map, Graph.edgesLabelled, built.indexed.labelled]
  edgesLabelled := built.indexed.labelled
  successors vertex := .of_eq (built.indexed.after vertex)
  predecessors vertex := .of_eq (built.indexed.before vertex)
  successorsByLabel vertex := by
    simp only [built.indexed.toList_targets]
    rw [Graph.successors, built.indexed.after]
    exact perm_byLabel built.listsLabels _ _
  predecessorsByLabel vertex := by
    simp only [built.indexed.toList_sources]
    rw [Graph.predecessors, built.indexed.before]
    exact perm_byLabel built.listsLabels _ _
  nodup_labels := graph.labelled.nodup_keys
  mem_labels := built.listsLabels
  containsEdge _ := built.indexed.containsEdge_iff
  containsVertex _ := Std.TreeSet.contains_iff_mem.trans built.closed.mem_vertices_iff
  loops vertex contained := by
    rw [List.one_le_count_iff, Array.mem_toList_iff]
    exact built.closed.loop_mem vertex (Std.TreeSet.contains_iff_mem.mp contained)

end Answers

/-- After any insertions all indices agree with the row of edges.  Another insertion puts its
edges at the end of the row. -/
theorem answersAsListed_afterInsertions (insertions : List Insertion) :
    (afterInsertions insertions).AnswersAsListed ∧
      ∀ insertion, (afterInsertions (insertions ++ [insertion])).edges.toList =
        (afterInsertions insertions).edges.toList ++
          (afterInsertions insertions).inserted insertion := by
  have built := built_afterInsertions insertions
  refine ⟨built.answersAsListed, fun insertion => ?_⟩
  rw [afterInsertions, List.foldl_append]
  exact built.indexed.toList_edges_insert insertion

example : ((afterInsertions [.always ⟨0, 0, ""⟩, .whenNew ⟨0, 0, ""⟩, .whenNew ⟨0, 1, "a"⟩,
    .always ⟨0, 1, "a"⟩]).targets (.at 0) "a").toList = [1, 1] := by decide +kernel

end Graph

end GrammarReach
