import GrammarReach.Proofs.Analysis.ValueFlow

/-!
# What pruning to flows leaves

Pruning keeps the labelled edges between vertices on walks from a source to a sink, and so it
keeps these walks.  The source and the sink themselves may be lost when their other ends lie on
no such walk, so that a second pruning can remove more.
-/

namespace GrammarReach

namespace Graph

/-- The epsilon edges of a graph and the labelled edges that pruning keeps. -/
def passableEdges (graph : Graph) : Set Edge :=
  {edge | edge ∈ graph.edges ∧ (edge.isEpsilon = true ∨ edge ∈ graph.keepFlows.edgeSet)}

section Pruning

variable {graph : Graph} {brackets : Set Edge} {vertex : Vertex}

private theorem exists_edge_of_mem_keepFlows (member : vertex ∈ graph.keepFlows.vertices) :
    ∃ edge ∈ graph.keepFlows.edgeSet, vertex = edge.source ∨ vertex = edge.target := by
  obtain ⟨edge, kept, role⟩ := mem_vertices_ofEdges.mp member
  have labelled : edge.isEpsilon = false := by
    have tests := (List.mem_filter.mp kept).2
    simp only [Bool.and_eq_true, Bool.not_eq_true'] at tests
    exact tests.1.1
  exact ⟨edge, mem_labelledEdges_ofEdges.mpr ⟨kept, labelled⟩, role⟩

private theorem keepFlows_subset (graph : Graph) : graph.keepFlows.edgeSet ⊆ graph.edgeSet :=
  fun _ member => labelledEdges_of_keepFlows member

private theorem onFlow_of_mem_keepFlows (built : graph.Built)
    (member : vertex ∈ graph.keepFlows.vertices) :
    OnFlow graph.edgeSet graph.allEdges vertex := by
  obtain ⟨edge, kept, rfl | rfl⟩ := exists_edge_of_mem_keepFlows member
  · exact ((mem_keepFlows_iff built).mp kept).2.1
  · exact ((mem_keepFlows_iff built).mp kept).2.2

private theorem OnFlow.passable (built : graph.Built) (known : brackets ⊆ graph.edgeSet)
    (onFlow : OnFlow brackets graph.allEdges vertex) :
    OnFlow brackets graph.passableEdges vertex := by
  obtain ⟨opened, openedMember, closed, closedMember, isSource, isSink, ⟨before, beforeJoins,
    beforeInside⟩, behind, behindJoins, behindInside⟩ := onFlow
  have inside : ∀ edge ∈ before ++ behind, edge ∈ graph.allEdges := fun edge member =>
    (List.mem_append.mp member).elim (beforeInside edge) (behindInside edge)
  have passable : ∀ edge ∈ before ++ behind, edge ∈ graph.passableEdges := by
    intro edge member
    have ends := onFlow_of_joins (known openedMember) (known closedMember) isSource isSink
      (beforeJoins.append behindJoins) inside member
    refine ⟨inside edge member, ?_⟩
    cases epsilon : edge.isEpsilon with
    | true => exact .inl rfl
    | false =>
        have labelled : edge ∈ graph.edgeSet :=
          mem_labelledEdges.mpr ⟨inside edge member, epsilon⟩
        exact .inr ((mem_keepFlows_iff built).mpr ⟨labelled, ends⟩)
  exact ⟨opened, openedMember, closed, closedMember, isSource, isSink,
    ⟨before, beforeJoins, fun edge early => passable edge (List.mem_append_left _ early)⟩,
    behind, behindJoins, fun edge late => passable edge (List.mem_append_right _ late)⟩

private theorem OnFlow.kept (built : graph.Built) (loops : graph.LoopsOnly)
    (known : brackets ⊆ graph.edgeSet) (onFlow : OnFlow brackets graph.allEdges vertex) :
    OnFlow brackets graph.keepFlows.edgeSet vertex := by
  refine ((onFlow.passable built known).labelled loops fun _ => And.left).mono subset_rfl ?_
  rintro edge ⟨⟨_, epsilon | kept⟩, labelled⟩
  · exact absurd epsilon (by simp [(mem_labelledEdges.mp labelled).2])
  · exact kept

private theorem labelledEdges_keepFlows_eq_iff (built : graph.Built) (loops : graph.LoopsOnly)
    (touched : ∀ vertex ∈ graph.vertices,
      ∃ edge ∈ graph.edgeSet, vertex = edge.source ∨ vertex = edge.target) :
    graph.keepFlows.labelledEdges = graph.labelledEdges ↔
      ∀ vertex ∈ graph.vertices, OnFlow graph.edgeSet graph.edgeSet vertex := by
  constructor
  · intro same vertex member
    obtain ⟨edge, inGraph, role⟩ := touched vertex member
    have kept : edge ∈ graph.keepFlows.edgeSet := by
      change edge ∈ graph.keepFlows.labelledEdges
      rwa [same]
    obtain ⟨_, source, target⟩ := (mem_keepFlows built loops).mp kept
    rcases role with rfl | rfl
    · exact source
    · exact target
  · intro onFlow
    rw [labelledEdges_keepFlows, List.filter_eq_self]
    intro edge member
    have inGraph := (mem_labelledEdges.mp member).1
    have flows : ∀ vertex ∈ graph.vertices, vertex ∈ graph.flowVertices := fun vertex known =>
      (mem_flowVertices_iff_onFlow built).mpr
        ((onFlow vertex known).mono subset_rfl (edgeSet_subset_allEdges graph))
    simp [flows _ (built.closed.source_mem edge inGraph),
      flows _ (built.closed.target_mem edge inGraph)]

/-- Pruning leaves the labelled edges between vertices on walks from a source to a sink of the
graph, and these walks but for their epsilon edges.  Pruning again removes no labelled edge
exactly if every vertex lies on a walk between brackets that are left, for which in a graph with
epsilon loops only it is enough that the graph has such a walk. -/
theorem keepFlows_onFlow (built : graph.Built) :
    (∀ edge, edge ∈ graph.keepFlows.edgeSet ↔ edge ∈ graph.edgeSet ∧
      OnFlow graph.edgeSet graph.allEdges edge.source ∧
      OnFlow graph.edgeSet graph.allEdges edge.target) ∧
    (∀ vertex ∈ graph.keepFlows.vertices, OnFlow graph.edgeSet graph.passableEdges vertex) ∧
    (graph.keepFlows.keepFlows.labelledEdges = graph.keepFlows.labelledEdges ↔
      ∀ vertex ∈ graph.keepFlows.vertices,
        OnFlow graph.keepFlows.edgeSet graph.keepFlows.edgeSet vertex) ∧
    (graph.LoopsOnly → ∀ vertex ∈ graph.keepFlows.vertices,
      OnFlow graph.edgeSet graph.keepFlows.edgeSet vertex ∧
      (OnFlow graph.keepFlows.edgeSet graph.keepFlows.edgeSet vertex ↔
        OnFlow graph.keepFlows.edgeSet graph.allEdges vertex)) := by
  refine ⟨fun edge => mem_keepFlows_iff built, fun vertex member => ?_, ?_,
    fun loops vertex member => ⟨?_, fun onFlow => ?_, fun onFlow => ?_⟩⟩
  · exact (onFlow_of_mem_keepFlows built member).passable built subset_rfl
  · exact labelledEdges_keepFlows_eq_iff (built_keepFlows graph) (loopsOnly_keepFlows graph)
      fun vertex => exists_edge_of_mem_keepFlows
  · exact (onFlow_of_mem_keepFlows built member).kept built loops subset_rfl
  · exact onFlow.mono subset_rfl
      ((keepFlows_subset graph).trans (edgeSet_subset_allEdges graph))
  · exact onFlow.kept built loops (keepFlows_subset graph)

end Pruning

/-- The target of the only opening bracket does not lead to the closing one. -/
def deadSource : List Edge :=
  [⟨0, 1, "ob--0"⟩, ⟨0, 2, "normal"⟩, ⟨2, 3, "cb--0"⟩]

/-- An epsilon edge leads from the opening to the closing bracket. -/
def silentFlow : List Edge :=
  [⟨0, 1, "ob--0"⟩, ⟨1, 2, ""⟩, ⟨2, 3, "cb--0"⟩]

/-- Behind the dead source the walk to the sink is left. -/
theorem keepFlows_onFlow_deadSource :
    let graph := ofEdges deadSource
    graph.Built ∧ graph.LoopsOnly ∧ OnFlow graph.edgeSet graph.keepFlows.edgeSet 2 := by
  intro graph
  have built : graph.Built := built_ofEdges deadSource
  have loops : graph.LoopsOnly := loopsOnly_ofEdges (by decide)
  obtain ⟨_, _, _, within⟩ := keepFlows_onFlow built
  exact ⟨built, loops, (within loops 2 (by decide +kernel)).1⟩

/-- Without the dead source no vertex that is left lies on a walk between brackets, and without
the epsilon edge the two brackets no longer hang together.  Pruning again leaves nothing. -/
theorem not_onFlow_keepFlows :
    let pruned := (ofEdges deadSource).keepFlows
    let silent := (ofEdges silentFlow).keepFlows
    (⟨0, 2, "normal"⟩ ∈ pruned.labelledEdges ∧ ¬ OnFlow pruned.edgeSet pruned.allEdges 2 ∧
        pruned.keepFlows.labelledEdges ≠ pruned.labelledEdges) ∧
      silent.labelledEdges = [⟨0, 1, "ob--0"⟩, ⟨2, 3, "cb--0"⟩] ∧
      silent.keepFlows.labelledEdges = [] := by
  refine ⟨⟨by decide +kernel, ?_, by decide +kernel⟩, by decide +kernel, by decide +kernel⟩
  rintro ⟨opened, member, _, _, isSource, _⟩
  have noSource : ∀ edge ∈ (ofEdges deadSource).keepFlows.labelledEdges,
      isSourceLabel edge.label = false := by
    decide +kernel
  exact absurd isSource (by simp [noSource opened member])

end Graph

end GrammarReach
