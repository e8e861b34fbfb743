import GrammarReach.Graph.Content
import GrammarReach.Proofs.Container.Rows

/-!
# Graphs and their indices

Every graph of the library is built by adding edges to the empty graph.  In such
a graph each index lists what the row of edges holds, in the order of insertion,
the vertices are the ends of the edges, and every vertex has its loop.
-/

namespace GrammarReach

theorem Edge.isEpsilonLoop_iff {edge : Edge} :
    edge.isEpsilonLoop = true ↔ edge.source = edge.target ∧ edge.label = Grammar.epsilon := by
  simp [isEpsilonLoop, isEpsilon]

namespace Graph

/-- Graphs that are made from the empty graph by adding edges. -/
inductive Built : Graph → Prop where
  | empty : Built .empty
  | add {graph : Graph} (edge : Edge) : Built graph → Built (graph.add edge)

/-- Each index holds the edges of the graph under the right keys. -/
structure Indexed (graph : Graph) : Prop where
  outgoing : ∀ junction : Junction,
    (graph.outgoing.row junction).toList =
      (graph.edges.toList.filter fun edge =>
        (⟨edge.source, edge.label⟩ : Junction) = junction).map Edge.target
  incoming : ∀ junction : Junction,
    (graph.incoming.row junction).toList =
      (graph.edges.toList.filter fun edge =>
        (⟨edge.target, edge.label⟩ : Junction) = junction).map Edge.source
  after : ∀ vertex : Vertex,
    (graph.after.row vertex).toList =
      (graph.edges.toList.filter fun edge => edge.source = vertex).map
        Edge.target
  before : ∀ vertex : Vertex,
    (graph.before.row vertex).toList =
      (graph.edges.toList.filter fun edge => edge.target = vertex).map
        Edge.source
  labelled : ∀ label : Label,
    (graph.labelled.row label).toList =
      graph.edges.toList.filter fun edge => edge.label = label

private theorem filter_map_singleton
    {α β : Type} (test : α → Bool) (value : α → β) (item : α) :
    ([item].filter test).map value = if test item then [value item] else [] := by
  by_cases passes : test item = true
  · simp [passes]
  · simp [passes]

theorem indexed_empty : Indexed .empty := by
  constructor <;> intro key <;> simp [Graph.empty, Keyed.row_empty]

/-- Appending an edge keeps all indices in step with the row of edges. -/
theorem Indexed.append {graph : Graph} (indexed : graph.Indexed)
    (edge : Edge) : (graph.append edge).Indexed := by
  constructor
  · intro junction
    simp [Graph.append, Keyed.toList_row_push, indexed.outgoing junction,
      filter_map_singleton]
  · intro junction
    simp [Graph.append, Keyed.toList_row_push, indexed.incoming junction,
      filter_map_singleton]
  · intro vertex
    simp [Graph.append, Keyed.toList_row_push, indexed.after vertex,
      filter_map_singleton]
  · intro vertex
    simp [Graph.append, Keyed.toList_row_push, indexed.before vertex,
      filter_map_singleton]
  · intro label
    by_cases same : edge.label = label
    · simp [Graph.append, Keyed.toList_row_push, indexed.labelled label, same]
    · simp [Graph.append, Keyed.toList_row_push, indexed.labelled label, same]

private theorem Indexed.withVertices {graph : Graph} (indexed : graph.Indexed)
    (vertices : VertexSet) : ({ graph with vertices } : Graph).Indexed :=
  ⟨indexed.outgoing, indexed.incoming, indexed.after, indexed.before,
    indexed.labelled⟩

theorem Indexed.register {graph : Graph} (indexed : graph.Indexed)
    (vertex : Vertex) : (graph.register vertex).Indexed := by
  unfold Graph.register
  split
  · exact indexed
  · exact (indexed.append (.loopAt vertex)).withVertices _

theorem Indexed.add {graph : Graph} (indexed : graph.Indexed)
    (edge : Edge) : (graph.add edge).Indexed :=
  ((indexed.append edge).register edge.source).register edge.target

theorem Built.indexed {graph : Graph} (built : graph.Built) :
    graph.Indexed := by
  induction built with
  | empty => exact indexed_empty
  | add edge _ induction => exact induction.add edge

/-! ## What an addition changes -/

theorem toList_edges_register (graph : Graph) (vertex : Vertex) :
    (graph.register vertex).edges.toList =
      graph.edges.toList ++
        if vertex ∈ graph.vertices then [] else [.loopAt vertex] := by
  unfold Graph.register
  by_cases known : vertex ∈ graph.vertices
  · simp [known]
  · simp [known, Graph.append]

theorem mem_vertices_register {graph : Graph} {vertex other : Vertex} :
    other ∈ (graph.register vertex).vertices ↔
      other ∈ graph.vertices ∨ other = vertex := by
  unfold Graph.register
  by_cases known : vertex ∈ graph.vertices
  · simp only [Std.TreeSet.contains_iff_mem, known, if_true]
    constructor
    · exact Or.inl
    · rintro (member | rfl)
      · exact member
      · exact known
  · simp only [Std.TreeSet.contains_iff_mem, known, if_false,
      Std.TreeSet.mem_insert, Std.LawfulEqOrd.compare_eq_iff_eq]
    constructor
    · rintro (rfl | old)
      · exact Or.inr rfl
      · exact Or.inl old
    · rintro (old | rfl)
      · exact Or.inr old
      · exact Or.inl rfl

theorem mem_vertices_add {graph : Graph} {edge : Edge} {vertex : Vertex} :
    vertex ∈ (graph.add edge).vertices ↔
      vertex ∈ graph.vertices ∨ vertex = edge.source ∨ vertex = edge.target := by
  simp only [Graph.add, mem_vertices_register, Graph.append, or_assoc]

/-- The ends of an edge become vertices; nothing else changes the vertices, and
every new vertex brings one loop along. -/
theorem toList_edges_add (graph : Graph) (edge : Edge) :
    (graph.add edge).edges.toList =
      graph.edges.toList ++ edge ::
        ((if edge.source ∈ graph.vertices then [] else [.loopAt edge.source]) ++
          if edge.target ∈ graph.vertices ∨ edge.target = edge.source then []
          else [.loopAt edge.target]) := by
  simp [Graph.add, toList_edges_register, mem_vertices_register,
    Graph.append]

/-- The vertices are the ends of the edges, and every vertex has its loop. -/
structure Closed (graph : Graph) : Prop where
  source_mem : ∀ edge ∈ graph.edges, edge.source ∈ graph.vertices
  target_mem : ∀ edge ∈ graph.edges, edge.target ∈ graph.vertices
  loop_mem : ∀ vertex ∈ graph.vertices, Edge.loopAt vertex ∈ graph.edges

/-- The edges after an addition to a closed graph. -/
theorem Closed.mem_add {graph : Graph} (closed : graph.Closed)
    {edge other : Edge} :
    other ∈ (graph.add edge).edges ↔
      other ∈ graph.edges ∨ other = edge ∨ other = .loopAt edge.source ∨
        other = .loopAt edge.target := by
  rw [← Array.mem_toList_iff, toList_edges_add, List.mem_append,
    List.mem_cons, List.mem_append, Array.mem_toList_iff]
  constructor
  · rintro (old | rfl | sourceLoop | targetLoop)
    · exact Or.inl old
    · exact Or.inr (Or.inl rfl)
    · split at sourceLoop
      · simp at sourceLoop
      · exact Or.inr (Or.inr (Or.inl (by simpa using sourceLoop)))
    · split at targetLoop
      · simp at targetLoop
      · exact Or.inr (Or.inr (Or.inr (by simpa using targetLoop)))
  · rintro (old | rfl | rfl | rfl)
    · exact Or.inl old
    · exact Or.inr (Or.inl rfl)
    · by_cases known : edge.source ∈ graph.vertices
      · exact Or.inl (closed.loop_mem _ known)
      · exact Or.inr (Or.inr (Or.inl (by simp [known])))
    · by_cases known : edge.target ∈ graph.vertices
      · exact Or.inl (closed.loop_mem _ known)
      · by_cases same : edge.target = edge.source
        · have sourceNew : edge.source ∉ graph.vertices := same ▸ known
          exact Or.inr (Or.inr (Or.inl (by simp [sourceNew, same])))
        · exact Or.inr (Or.inr (Or.inr (by simp [known, same])))

theorem Closed.add {graph : Graph} (closed : graph.Closed) (edge : Edge) :
    (graph.add edge).Closed := by
  constructor
  · intro other member
    rw [mem_vertices_add]
    rcases closed.mem_add.mp member with old | rfl | rfl | rfl
    · exact Or.inl (closed.source_mem other old)
    · exact Or.inr (Or.inl rfl)
    · exact Or.inr (Or.inl rfl)
    · exact Or.inr (Or.inr rfl)
  · intro other member
    rw [mem_vertices_add]
    rcases closed.mem_add.mp member with old | rfl | rfl | rfl
    · exact Or.inl (closed.target_mem other old)
    · exact Or.inr (Or.inr rfl)
    · exact Or.inr (Or.inl rfl)
    · exact Or.inr (Or.inr rfl)
  · intro vertex member
    apply closed.mem_add.mpr
    rcases mem_vertices_add.mp member with old | rfl | rfl
    · exact Or.inl (closed.loop_mem vertex old)
    · exact Or.inr (Or.inr (Or.inl rfl))
    · exact Or.inr (Or.inr (Or.inr rfl))

theorem Built.closed {graph : Graph} (built : graph.Built) :
    graph.Closed := by
  induction built with
  | empty => constructor <;> intro item member <;> simp [Graph.empty] at member
  | add edge _ induction => exact induction.add edge

/-! ## Graphs of given edges -/

theorem Built.foldl_add {graph : Graph} (built : graph.Built)
    (edges : List Edge) : (edges.foldl Graph.add graph).Built := by
  induction edges generalizing graph with
  | nil => exact built
  | cons edge edges induction => exact induction (.add edge built)

theorem built_ofEdges (edges : List Edge) : (ofEdges edges).Built :=
  Built.empty.foldl_add edges

theorem Built.eq_ofEdges {graph : Graph} (built : graph.Built) :
    ∃ edges, graph = ofEdges edges := by
  induction built with
  | empty => exact ⟨[], rfl⟩
  | add edge _ induction =>
      obtain ⟨edges, rfl⟩ := induction
      exact ⟨edges ++ [edge], by simp [ofEdges, List.foldl_append]⟩

theorem Built.addNew {graph : Graph} (built : graph.Built) (edge : Edge) :
    (graph.addNew edge).Built := by
  unfold Graph.addNew Graph.insertNew
  split
  · exact built
  · exact .add edge built

theorem Built.foldl_addNew {graph : Graph} (built : graph.Built)
    (edges : List Edge) : (edges.foldl Graph.addNew graph).Built := by
  induction edges generalizing graph with
  | nil => exact built
  | cons edge edges induction => exact induction (built.addNew edge)

theorem built_ofDistinctEdges (edges : List Edge) :
    (ofDistinctEdges edges).Built :=
  Built.empty.foldl_addNew edges

/-- The edge, or the loop at one of its ends. -/
def Generates (edge other : Edge) : Prop :=
  other = edge ∨ other = .loopAt edge.source ∨ other = .loopAt edge.target

private theorem Built.mem_foldl_add {graph : Graph} (built : graph.Built)
    {edges : List Edge} {other : Edge} :
    other ∈ (edges.foldl Graph.add graph).edges ↔
      other ∈ graph.edges ∨ ∃ edge ∈ edges, Generates edge other := by
  induction edges generalizing graph with
  | nil => simp
  | cons edge edges induction =>
      rw [List.foldl_cons, induction (.add edge built), built.closed.mem_add]
      simp only [List.mem_cons, exists_eq_or_imp, Generates]
      constructor
      · rintro ((old | new) | rest)
        · exact Or.inl old
        · exact Or.inr (Or.inl new)
        · exact Or.inr (Or.inr rest)
      · rintro (old | new | rest)
        · exact Or.inl (Or.inl old)
        · exact Or.inl (Or.inr new)
        · exact Or.inr rest

theorem mem_ofEdges {edges : List Edge} {other : Edge} :
    other ∈ (ofEdges edges).edges ↔ ∃ edge ∈ edges, Generates edge other := by
  rw [ofEdges, Built.empty.mem_foldl_add]
  simp [Graph.empty]

theorem Indexed.containsEdge_iff {graph : Graph} (indexed : graph.Indexed)
    {edge : Edge} : graph.containsEdge edge = true ↔ edge ∈ graph.edges := by
  unfold Graph.containsEdge
  rw [Array.contains_iff_mem, ← Array.mem_toList_iff, indexed.outgoing]
  simp only [List.mem_map, List.mem_filter, Array.mem_toList_iff,
    decide_eq_true_eq, Junction.mk.injEq]
  constructor
  · rintro ⟨other, ⟨member, sameSource, sameLabel⟩, sameTarget⟩
    obtain ⟨source, target, label⟩ := edge
    obtain ⟨otherSource, otherTarget, otherLabel⟩ := other
    subst sameSource sameLabel sameTarget
    exact member
  · intro member
    exact ⟨edge, ⟨member, rfl, rfl⟩, rfl⟩

private theorem Built.mem_addNew {graph : Graph} (built : graph.Built)
    {edge other : Edge} :
    other ∈ (graph.addNew edge).edges ↔
      other ∈ graph.edges ∨ Generates edge other := by
  unfold Graph.addNew Graph.insertNew
  by_cases known : graph.containsEdge edge = true
  · rw [if_pos known]
    have member := built.indexed.containsEdge_iff.mp known
    have closed := built.closed
    constructor
    · exact Or.inl
    · rintro (old | rfl | rfl | rfl)
      · exact old
      · exact member
      · exact closed.loop_mem _ (closed.source_mem _ member)
      · exact closed.loop_mem _ (closed.target_mem _ member)
  · rw [if_neg known]
    exact built.closed.mem_add

private theorem Built.mem_foldl_addNew {graph : Graph} (built : graph.Built)
    {edges : List Edge} {other : Edge} :
    other ∈ (edges.foldl Graph.addNew graph).edges ↔
      other ∈ graph.edges ∨ ∃ edge ∈ edges, Generates edge other := by
  induction edges generalizing graph with
  | nil => simp
  | cons edge edges induction =>
      rw [List.foldl_cons, induction (built.addNew edge), built.mem_addNew]
      simp only [List.mem_cons, exists_eq_or_imp, or_assoc]

theorem mem_ofDistinctEdges {edges : List Edge} {other : Edge} :
    other ∈ (ofDistinctEdges edges).edges ↔
      ∃ edge ∈ edges, Generates edge other := by
  rw [ofDistinctEdges, Built.empty.mem_foldl_addNew]
  simp [Graph.empty]

/-! ## Following edges -/

theorem Indexed.mem_targets {graph : Graph} (indexed : graph.Indexed)
    {source target : Vertex} {label : Label} :
    target ∈ graph.targets (.at source) label ↔ ⟨source, target, label⟩ ∈ graph.edges := by
  rw [Graph.targets, ← Array.contains_iff_mem]
  exact @Indexed.containsEdge_iff graph indexed ⟨source, target, label⟩

theorem Indexed.mem_sources {graph : Graph} (indexed : graph.Indexed)
    {source target : Vertex} {label : Label} :
    source ∈ graph.sources (.at target) label ↔ ⟨source, target, label⟩ ∈ graph.edges := by
  rw [Graph.sources, ← Array.mem_toList_iff, indexed.incoming]
  simp only [List.mem_map, List.mem_filter, Array.mem_toList_iff,
    decide_eq_true_eq, Junction.mk.injEq]
  constructor
  · rintro ⟨⟨edgeSource, edgeTarget, edgeLabel⟩, ⟨member, rfl, rfl⟩, rfl⟩
    exact member
  · intro member
    exact ⟨_, ⟨member, rfl, rfl⟩, rfl⟩

theorem Indexed.mem_edgesLabelled {graph : Graph} (indexed : graph.Indexed)
    {label : Label} {edge : Edge} :
    edge ∈ graph.edgesLabelled label ↔ edge ∈ graph.edges ∧ edge.label = label := by
  rw [Graph.edgesLabelled, ← Array.mem_toList_iff, indexed.labelled]
  simp

theorem Indexed.mem_successors {graph : Graph} (indexed : graph.Indexed)
    {vertex next : Vertex} :
    next ∈ graph.successors vertex ↔
      ∃ edge ∈ graph.edges, edge.source = vertex ∧ edge.target = next := by
  rw [successors, ← Array.mem_toList_iff, indexed.after]
  simp [and_assoc]

theorem Indexed.mem_predecessors {graph : Graph} (indexed : graph.Indexed)
    {vertex next : Vertex} :
    next ∈ graph.predecessors vertex ↔
      ∃ edge ∈ graph.edges, edge.target = vertex ∧ edge.source = next := by
  rw [predecessors, ← Array.mem_toList_iff, indexed.before]
  simp [and_assoc]

/-! ## Labelled edges -/

@[simp] theorem isEpsilon_loopAt (vertex : Vertex) :
    (Edge.loopAt vertex).isEpsilon = true := by
  simp [Edge.isEpsilon, Edge.loopAt]

theorem mem_labelledEdges {graph : Graph} {edge : Edge} :
    edge ∈ graph.labelledEdges ↔
      edge ∈ graph.edges ∧ edge.isEpsilon = false := by
  simp [labelledEdges]

private theorem generates_labelled {edge other : Edge}
    (labelled : other.isEpsilon = false) :
    Generates edge other ↔ other = edge := by
  constructor
  · rintro (same | rfl | rfl)
    · exact same
    · simp at labelled
    · simp at labelled
  · exact Or.inl

theorem mem_labelledEdges_ofEdges {edges : List Edge} {edge : Edge} :
    edge ∈ (ofEdges edges).labelledEdges ↔
      edge ∈ edges ∧ edge.isEpsilon = false := by
  rw [mem_labelledEdges, mem_ofEdges]
  constructor
  · rintro ⟨⟨other, member, generated⟩, labelled⟩
    rw [generates_labelled labelled] at generated
    exact ⟨generated ▸ member, labelled⟩
  · rintro ⟨member, labelled⟩
    exact ⟨⟨edge, member, Or.inl rfl⟩, labelled⟩

theorem mem_labelledEdges_ofDistinctEdges {edges : List Edge} {edge : Edge} :
    edge ∈ (ofDistinctEdges edges).labelledEdges ↔
      edge ∈ edges ∧ edge.isEpsilon = false := by
  rw [mem_labelledEdges, mem_ofDistinctEdges, ← mem_ofEdges,
    ← mem_labelledEdges, mem_labelledEdges_ofEdges]

/-- A vertex of the graph of some edges is an end of one of them. -/
theorem mem_vertices_ofEdges {edges : List Edge} {vertex : Vertex} :
    vertex ∈ (ofEdges edges).vertices ↔
      ∃ edge ∈ edges, vertex = edge.source ∨ vertex = edge.target := by
  have closed := (built_ofEdges edges).closed
  constructor
  · intro member
    obtain ⟨edge, edgeMember, generated⟩ :=
      mem_ofEdges.mp (closed.loop_mem vertex member)
    refine ⟨edge, edgeMember, ?_⟩
    rcases generated with rfl | same | same
    · exact Or.inl rfl
    · exact Or.inl (congrArg Edge.source same)
    · exact Or.inr (congrArg Edge.source same)
  · rintro ⟨edge, member, rfl | rfl⟩
    · exact closed.source_mem edge (mem_ofEdges.mpr ⟨edge, member, Or.inl rfl⟩)
    · exact closed.target_mem edge (mem_ofEdges.mpr ⟨edge, member, Or.inl rfl⟩)

/-- Every epsilon edge is a loop. -/
def LoopsOnly (graph : Graph) : Prop :=
  ∀ edge ∈ graph.edges, edge.isEpsilon = true → edge.source = edge.target

private theorem source_eq_target_of_generated {edges : List Edge} {other : Edge}
    (labelled : ∀ edge ∈ edges, edge.isEpsilon = false) (epsilon : other.isEpsilon = true)
    (generated : ∃ edge ∈ edges, Generates edge other) : other.source = other.target := by
  obtain ⟨edge, edgeMember, rfl | rfl | rfl⟩ := generated
  · rw [labelled other edgeMember] at epsilon
    cases epsilon
  · rfl
  · rfl

theorem loopsOnly_ofEdges {edges : List Edge}
    (labelled : ∀ edge ∈ edges, edge.isEpsilon = false) : (ofEdges edges).LoopsOnly :=
  fun _ member epsilon =>
    source_eq_target_of_generated labelled epsilon (mem_ofEdges.mp member)

theorem loopsOnly_ofDistinctEdges {edges : List Edge}
    (labelled : ∀ edge ∈ edges, edge.isEpsilon = false) :
    (ofDistinctEdges edges).LoopsOnly :=
  fun _ member epsilon =>
    source_eq_target_of_generated labelled epsilon (mem_ofDistinctEdges.mp member)

/-! ## Proper edges -/

/-- The edges besides the epsilon loops, in the order in which they were added. -/
def properEdges (graph : Graph) : List Edge :=
  graph.edges.toList.filter fun edge => !edge.isEpsilonLoop

theorem mem_properEdges {graph : Graph} {edge : Edge} :
    edge ∈ graph.properEdges ↔ edge ∈ graph.edges ∧ edge.isEpsilonLoop = false := by
  simp [properEdges]

@[simp] theorem isEpsilonLoop_loopAt (vertex : Vertex) : (Edge.loopAt vertex).isEpsilonLoop = true := by
  simp [Edge.isEpsilonLoop, Edge.isEpsilon, Edge.loopAt]

theorem LoopsOnly.isEpsilon_eq_false {graph : Graph} (loops : graph.LoopsOnly) {edge : Edge}
    (member : edge ∈ graph.edges) (noLoop : edge.isEpsilonLoop = false) :
    edge.isEpsilon = false := by
  cases epsilon : edge.isEpsilon with
  | false => rfl
  | true => simp [Edge.isEpsilonLoop, epsilon, loops edge member epsilon] at noLoop

theorem properEdges_add (graph : Graph) (edge : Edge) :
    (graph.add edge).properEdges =
      graph.properEdges ++ [edge].filter fun edge => !edge.isEpsilonLoop := by
  simp only [properEdges, toList_edges_add, List.filter_append, List.filter_cons,
    List.filter_nil]
  split <;> split <;> split <;> simp

theorem properEdges_ofEdges (edges : List Edge) :
    (ofEdges edges).properEdges = edges.filter fun edge => !edge.isEpsilonLoop := by
  have general : ∀ graph : Graph, (edges.foldl add graph).properEdges =
      graph.properEdges ++ edges.filter fun edge => !edge.isEpsilonLoop := by
    induction edges with
    | nil => simp
    | cons edge edges induction =>
        intro graph
        rw [List.foldl_cons, induction, properEdges_add, List.append_assoc,
          ← List.filter_append]
        rfl
  exact general .empty

end Graph

end GrammarReach
