import GrammarReach.Graph.Restriction
import GrammarReach.Proofs.Graph.Components
import GrammarReach.Proofs.Graph.Sizes

/-!
# Restriction keeps walks between targets

A restricted graph holds every walk from the start to the stop of a target, no
other labelled edges than the graph, and weighs no more.
-/

namespace GrammarReach

namespace Graph

section Restriction

variable {graph : Graph} {targets : List Span}

theorem built_restrictTo (built : graph.Built) : (graph.restrictTo targets).Built := by
  unfold restrictTo
  split
  · exact built
  · exact built_ofEdges _

theorem labelledEdges_of_restrictTo {edge : Edge}
    (member : edge ∈ (graph.restrictTo targets).labelledEdges) : edge ∈ graph.labelledEdges := by
  unfold restrictTo at member
  split at member
  · exact member
  · obtain ⟨kept, labelled⟩ := mem_labelledEdges_ofEdges.mp member
    have inGraph : edge ∈ graph.edges := by simpa using (List.mem_filter.mp kept).1
    exact mem_labelledEdges.mpr ⟨inGraph, labelled⟩

theorem weight_restrictTo_le (built : graph.Built) :
    (graph.restrictTo targets).weight ≤ graph.weight := by
  unfold restrictTo
  split
  · exact Nat.le_refl _
  · exact built.weight_ofEdges_filter_le _

private theorem componentSpan?_eq {components : Components} {span : Span} {start stop : Nat}
    (startFound : components.component? span.start = some start)
    (stopFound : components.component? span.stop = some stop) :
    componentSpan? components span = some ⟨start, stop⟩ := by
  simp [componentSpan?, startFound, stopFound]

/-- An edge lies between the components of the targets when the start of a target reaches
its source and its target reaches the stop. -/
theorem isBetween_iff (built : graph.Built) {edge : Edge} (inside : edge ∈ graph.edges) :
    isBetween (.ofGraph graph)
        (Std.TreeSet.ofList (targets.filterMap (componentSpan? (.ofGraph graph)))).toList
        edge = true ↔
      ∃ span ∈ targets, (Components.ofGraph graph).reaches span.start edge.source = true ∧
        (Components.ofGraph graph).reaches edge.target span.stop = true := by
  obtain ⟨source, sourceFound⟩ :=
    (Components.exists_component_iff built).mpr (built.closed.source_mem edge inside)
  obtain ⟨target, targetFound⟩ :=
    (Components.exists_component_iff built).mpr (built.closed.target_mem edge inside)
  have edgeSpan := @componentSpan?_eq _ ⟨edge.source, edge.target⟩ _ _ sourceFound targetFound
  simp only [isBetween, edgeSpan, List.any_eq_true, Bool.and_eq_true, Std.TreeSet.mem_toList,
    Std.TreeSet.mem_ofList, List.contains_iff_mem, List.mem_filterMap]
  constructor
  · rintro ⟨components, ⟨span, wanted, place⟩, before, behind⟩
    unfold componentSpan? at place
    split at place
    case h_1 start stop startFound stopFound =>
      cases place
      rw [Components.componentReaches_eq startFound sourceFound] at before
      rw [Components.componentReaches_eq targetFound stopFound] at behind
      exact ⟨span, wanted, before, behind⟩
    case h_2 => cases place
  · rintro ⟨span, wanted, before, behind⟩
    obtain ⟨start, startFound⟩ := (Components.exists_component_iff built).mpr
      ((Components.reaches_eq_true_iff built).mp before).1
    obtain ⟨stop, stopFound⟩ := (Components.exists_component_iff built).mpr
      ((Components.reaches_eq_true_iff built).mp behind).2.1
    refine ⟨_, ⟨span, wanted, componentSpan?_eq startFound stopFound⟩, ?_, ?_⟩
    · rw [Components.componentReaches_eq startFound sourceFound, before]
    · rw [Components.componentReaches_eq targetFound stopFound, behind]

private theorem isBetween_of_joins (built : graph.Built) {span : Span}
    (target : span ∈ targets) {path : List Edge} (joins : Joins span.start path span.stop)
    (inside : ∀ edge ∈ path, edge ∈ graph.edges) {edge : Edge} (member : edge ∈ path) :
    isBetween (.ofGraph graph)
      (Std.TreeSet.ofList (targets.filterMap (componentSpan? (.ofGraph graph)))).toList
      edge = true := by
  have closed := built.closed
  obtain ⟨before, behind, rfl, first, last⟩ := joins.split member
  have edgeInside := inside edge (by simp)
  have startMember : span.start ∈ graph.vertices := by
    cases before with
    | nil => exact first ▸ closed.source_mem edge edgeInside
    | cons head before => exact first.1 ▸ closed.source_mem head (inside head (by simp))
  have toSource := Components.reaches_of_joins built first
    (fun other otherMember => inside other (by simp [otherMember])) startMember
  have fromTarget := Components.reaches_of_joins built last
    (fun other otherMember => inside other (by simp [otherMember]))
    (closed.target_mem edge edgeInside)
  exact (isBetween_iff built edgeInside).mpr ⟨span, target, toSource, fromTarget⟩

/-- Restriction keeps the labelled edges of every walk between the ends of a
target. -/
theorem mem_restrictTo_of_joins (built : graph.Built) {span : Span}
    (target : span ∈ targets) {path : List Edge} (joins : Joins span.start path span.stop)
    (inside : ∀ edge ∈ path, edge ∈ graph.labelledEdges) :
    ∀ edge ∈ path, edge ∈ (graph.restrictTo targets).labelledEdges := by
  intro edge member
  have labelled := inside edge member
  unfold restrictTo
  split
  · exact labelled
  · obtain ⟨inGraph, notEpsilon⟩ := mem_labelledEdges.mp labelled
    have between := isBetween_of_joins built target joins
      (fun other onPath => (mem_labelledEdges.mp (inside other onPath)).1) member
    refine mem_labelledEdges_ofEdges.mpr ⟨List.mem_filter.mpr ⟨by simpa using inGraph, ?_⟩,
      notEpsilon⟩
    simp [Edge.isEpsilonLoop, notEpsilon, between]

end Restriction

end Graph

end GrammarReach
