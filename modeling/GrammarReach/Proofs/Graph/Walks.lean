import GrammarReach.Proofs.Graph.Indices

/-!
# Walks

A walk is a list of edges each of which starts where the one before stops.  The
edges need not be those of one graph, so that a walk can be followed from a
graph to the graphs that are derived from it.
-/

namespace GrammarReach

/-- The edges lead from the first vertex to the second one. -/
def Joins : Vertex → List Edge → Vertex → Prop
  | start, [], stop => start = stop
  | start, edge :: path, stop => edge.source = start ∧ Joins edge.target path stop

theorem Span.irreflexive_iff {span : Span} :
    span.isReflexive = false ↔ span.start ≠ span.stop := by
  simp [Span.isReflexive]

namespace Joins

theorem append_iff {start stop : Vertex} {left right : List Edge} :
    Joins start (left ++ right) stop ↔
      ∃ middle, Joins start left middle ∧ Joins middle right stop := by
  induction left generalizing start with
  | nil => simp [Joins]
  | cons edge left induction =>
      simp only [List.cons_append, Joins, induction]
      constructor
      · rintro ⟨source, middle, before, behind⟩
        exact ⟨middle, ⟨source, before⟩, behind⟩
      · rintro ⟨middle, ⟨source, before⟩, behind⟩
        exact ⟨source, middle, before, behind⟩

theorem append {start middle stop : Vertex} {left right : List Edge}
    (before : Joins start left middle) (behind : Joins middle right stop) :
    Joins start (left ++ right) stop :=
  append_iff.mpr ⟨middle, before, behind⟩

theorem single (edge : Edge) : Joins edge.source [edge] edge.target :=
  ⟨rfl, rfl⟩

theorem ne_nil {start stop : Vertex} {path : List Edge}
    (joins : Joins start path stop) (different : start ≠ stop) : path ≠ [] := by
  rintro rfl
  exact different joins

theorem map {start stop : Vertex} {path : List Edge}
    (joins : Joins start path stop) (name : Vertex → Vertex) :
    Joins (name start)
      (path.map fun edge => ⟨name edge.source, name edge.target, edge.label⟩)
      (name stop) := by
  induction path generalizing start with
  | nil => exact congrArg name joins
  | cons edge path induction =>
      exact ⟨congrArg name joins.1, induction joins.2⟩

theorem transport {start stop : Vertex} {path : List Edge}
    (joins : Joins start path stop) (holds : Vertex → Prop)
    (step : ∀ edge ∈ path, holds edge.source → holds edge.target)
    (first : holds start) : holds stop := by
  induction path generalizing start with
  | nil => exact joins ▸ first
  | cons edge path induction =>
      have next : holds edge.target := step edge (by simp) (joins.1 ▸ first)
      exact induction joins.2 (fun other member => step other (by simp [member])) next

theorem split {start stop : Vertex} {path : List Edge} {edge : Edge}
    (joins : Joins start path stop) (member : edge ∈ path) :
    ∃ before behind, path = before ++ edge :: behind ∧
      Joins start before edge.source ∧ Joins edge.target behind stop := by
  obtain ⟨before, behind, rfl⟩ := List.append_of_mem member
  obtain ⟨middle, first, source, second⟩ := append_iff.mp joins
  exact ⟨before, behind, rfl, source ▸ first, second⟩

theorem start_mem {graph : Graph} (built : graph.Built) {start stop : Vertex} {path : List Edge}
    (joins : Joins start path stop) (nonempty : path ≠ [])
    (inside : ∀ edge ∈ path, edge ∈ graph.edges) : start ∈ graph.vertices := by
  cases path with
  | nil => exact absurd rfl nonempty
  | cons edge path => exact joins.1 ▸ built.closed.source_mem edge (inside edge (by simp))

end Joins

/-- The labels along a walk. -/
def wordOf (path : List Edge) : List Label :=
  path.map Edge.label

@[simp] theorem wordOf_nil : wordOf [] = [] := rfl

@[simp] theorem wordOf_cons (edge : Edge) (path : List Edge) :
    wordOf (edge :: path) = edge.label :: wordOf path := rfl

@[simp] theorem wordOf_append (left right : List Edge) :
    wordOf (left ++ right) = wordOf left ++ wordOf right := by
  simp [wordOf]

theorem wordOf_subset {left right : List Edge} (sub : ∀ edge ∈ left, edge ∈ right)
    {label : Label} (member : label ∈ wordOf left) : label ∈ wordOf right := by
  obtain ⟨edge, inLeft, rfl⟩ := List.mem_map.mp member
  exact List.mem_map.mpr ⟨edge, sub edge inLeft, rfl⟩

/-! ## Walks between vertices -/

/-- A walk in the graph leads from the first vertex to the second. -/
def Graph.Reaches (graph : Graph) (start stop : Vertex) : Prop :=
  ∃ path, Joins start path stop ∧ ∀ edge ∈ path, edge ∈ graph.edges

namespace Graph.Reaches

variable {graph : Graph} {start middle stop : Vertex}

theorem refl (graph : Graph) (vertex : Vertex) : graph.Reaches vertex vertex :=
  ⟨[], rfl, by simp⟩

theorem trans (before : graph.Reaches start middle) (behind : graph.Reaches middle stop) :
    graph.Reaches start stop := by
  obtain ⟨path, joins, inside⟩ := before
  obtain ⟨later, laterJoins, laterInside⟩ := behind
  refine ⟨path ++ later, joins.append laterJoins, fun edge member => ?_⟩
  exact (List.mem_append.mp member).elim (inside edge) (laterInside edge)

theorem of_edge {edge : Edge} (member : edge ∈ graph.edges) :
    graph.Reaches edge.source edge.target :=
  ⟨[edge], .single edge, by simpa using member⟩

theorem transport (reaches : graph.Reaches start stop) (holds : Vertex → Prop)
    (step : ∀ edge ∈ graph.edges, holds edge.source → holds edge.target)
    (first : holds start) : holds stop := by
  obtain ⟨path, joins, inside⟩ := reaches
  exact joins.transport holds (fun edge member => step edge (inside edge member)) first

end Graph.Reaches

end GrammarReach
