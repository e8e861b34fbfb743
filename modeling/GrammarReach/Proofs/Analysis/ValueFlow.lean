import GrammarReach.Analysis.ValueFlow
import GrammarReach.Proofs.Bracket.ComponentGraphs
import GrammarReach.Proofs.Graph.Layered
import GrammarReach.Proofs.Graph.LinkedEdges
import GrammarReach.Proofs.Graph.Restriction

/-!
# Wrapped walks

The wrapped spans of a graph are exactly the spans of its wrapped walks, and the
edges between sources and sinks hold all of these walks.
-/

namespace GrammarReach

open BracketLanguage

theorem wrapped_filter {word : List Label} (wrapped : Wrapped word) :
    Wrapped (word.filter (· != Grammar.epsilon)) := by
  obtain ⟨inner, rfl⟩ := wrapped
  have opened : (wrapperOpen != Grammar.epsilon) = true := by decide
  have closed : (wrapperClose != Grammar.epsilon) = true := by decide
  refine ⟨inner.filter (· != Grammar.epsilon), ?_⟩
  simp only [List.filter_cons, List.filter_append, opened, closed, if_true, List.filter_nil]

namespace Graph

section Wrapped

variable {graph : Graph}

/-- The wrapped spans are those of walks that spell a wrapped word of canonical labels and
epsilon. -/
theorem mem_wrappedSpans_iff (built : graph.Built) {span : Span} :
    span ∈ graph.wrappedSpans ↔ ∃ path, Joins span.start path span.stop ∧
      (∀ edge ∈ path, edge ∈ graph.edges) ∧
      (∀ label ∈ wordOf path, CanonicalLabel label ∨ label = Grammar.epsilon) ∧
      Wrapped (wordOf path) := by
  have arities := (wordGrammar_wrapper graph.allBrackets.ids).hasArities
  unfold wrappedSpans Reachability.spanSet
  rw [Std.TreeSet.mem_ofList, List.contains_iff_mem, mem_spans_solve built arities]
  constructor
  · rintro ⟨used, derives⟩
    exact walk_of_derives_wrapper _ (proper_allBrackets graph).bounded derives
  · rintro ⟨path, joins, inside, known, wrapped⟩
    refine derives_wrapper _ built joins inside (fun label member => ?_) wrapped
    obtain ⟨edge, onPath, rfl⟩ := List.mem_map.mp member
    exact (known _ member).imp_left (covers_allBrackets (inside edge onPath))

theorem mem_wrappedSpans (built : graph.Built) (loops : graph.LoopsOnly) {span : Span} :
    span ∈ graph.wrappedSpans ↔ ∃ path, WrappedWalk graph span path := by
  rw [mem_wrappedSpans_iff built]
  constructor
  · rintro ⟨path, joins, inside, known, wrapped⟩
    refine ⟨withoutEpsilon path, canonicalWalk_withoutEpsilon loops joins inside known, ?_⟩
    rw [wordOf_withoutEpsilon]
    exact wrapped_filter wrapped
  · rintro ⟨path, walk⟩
    exact ⟨path, walk.joins, fun edge member => walk.mem_edges member,
      fun label member => .inl (walk.canonical label member), walk.wrapped⟩

theorem mem_firstOccurrences {seen : SpanSet} {spans : List Span} {span : Span} :
    span ∈ firstOccurrences seen spans ↔ span ∈ spans ∧ span ∉ seen := by
  induction spans generalizing seen with
  | nil => simp [firstOccurrences]
  | cons first rest induction =>
      unfold firstOccurrences
      split
      · rename_i known
        rw [induction, List.mem_cons]
        constructor
        · exact fun ⟨member, fresh⟩ => ⟨Or.inr member, fresh⟩
        · rintro ⟨rfl | member, fresh⟩
          · exact absurd (by simpa using known) fresh
          · exact ⟨member, fresh⟩
      · rename_i unknown
        have fresh : first ∉ seen := by simpa using unknown
        rw [List.mem_cons, induction, List.mem_cons, Std.TreeSet.mem_insert,
          Std.LawfulEqOrd.compare_eq_iff_eq]
        by_cases same : span = first
        · subst same
          simp [fresh]
        · simp [same, Ne.symm same]

theorem mem_filterWrapped {spans : List Span} {span : Span} :
    span ∈ graph.filterWrapped spans ↔ span ∈ spans ∧ span ∈ graph.wrappedSpans := by
  unfold filterWrapped
  rw [mem_firstOccurrences, List.mem_filter, Std.TreeSet.contains_iff_mem]
  simp

/-! ## The edges between sources and sinks -/

theorem labelledEdges_of_keepFlows {edge : Edge} (member : edge ∈ graph.keepFlows.labelledEdges) :
    edge ∈ graph.labelledEdges := by
  unfold keepFlows at member
  obtain ⟨kept, labelled⟩ := mem_labelledEdges_ofEdges.mp member
  have inGraph : edge ∈ graph.edges := by simpa using (List.mem_filter.mp kept).1
  exact mem_labelledEdges.mpr ⟨inGraph, labelled⟩

theorem built_keepFlows (graph : Graph) : graph.keepFlows.Built :=
  built_ofEdges _

theorem loopsOnly_keepFlows (graph : Graph) : graph.keepFlows.LoopsOnly := by
  apply loopsOnly_ofEdges
  intro edge member
  have kept := (List.mem_filter.mp member).2
  simp only [Bool.and_eq_true, Bool.not_eq_true'] at kept
  exact kept.1.1

/-- The flow vertices are those that are reached from a source and reach a sink. -/
theorem mem_flowVertices (built : graph.Built) {vertex : Vertex} :
    vertex ∈ graph.flowVertices ↔ ∃ opened ∈ graph.edges, ∃ closed ∈ graph.edges,
      isSourceLabel opened.label = true ∧ isSinkLabel closed.label = true ∧
      (Components.ofGraph graph).reaches opened.source vertex = true ∧
      (Components.ofGraph graph).reaches vertex closed.target = true := by
  have sources : ∀ {component : Nat},
      component ∈ (graph.sourceComponents (.ofGraph graph)).toList ↔ ∃ opened ∈ graph.edges,
        isSourceLabel opened.label = true ∧
        (Components.ofGraph graph).component? opened.source = some component := by
    intro component
    rw [Std.TreeSet.mem_toList, sourceComponents, Std.TreeSet.mem_ofList, List.contains_iff_mem]
    simp [List.mem_filterMap, and_assoc]
  have sinks : ∀ {component : Nat},
      component ∈ (graph.sinkComponents (.ofGraph graph)).toList ↔ ∃ closed ∈ graph.edges,
        isSinkLabel closed.label = true ∧
        (Components.ofGraph graph).component? closed.target = some component := by
    intro component
    rw [Std.TreeSet.mem_toList, sinkComponents, Std.TreeSet.mem_ofList, List.contains_iff_mem]
    simp [List.mem_filterMap, and_assoc]
  unfold flowVertices
  rw [Std.TreeSet.mem_ofList, List.contains_iff_mem, List.mem_filter, mem_vertexList]
  constructor
  · rintro ⟨member, between⟩
    obtain ⟨place, placeFound⟩ := (Components.exists_component_iff built).mpr member
    simp only [placeFound, Bool.and_eq_true, List.any_eq_true] at between
    obtain ⟨⟨source, isSource, before⟩, sink, isSink, behind⟩ := between
    obtain ⟨opened, openedMember, openedLabel, sourceFound⟩ := sources.mp isSource
    obtain ⟨closed, closedMember, closedLabel, sinkFound⟩ := sinks.mp isSink
    rw [Components.componentReaches_eq sourceFound placeFound] at before
    rw [Components.componentReaches_eq placeFound sinkFound] at behind
    exact ⟨opened, openedMember, closed, closedMember, openedLabel, closedLabel, before, behind⟩
  · rintro ⟨opened, openedMember, closed, closedMember, openedLabel, closedLabel, before, behind⟩
    have member := ((Components.reaches_eq_true_iff built).mp before).2.1
    obtain ⟨place, placeFound⟩ := (Components.exists_component_iff built).mpr member
    obtain ⟨source, sourceFound⟩ := (Components.exists_component_iff built).mpr
      (built.closed.source_mem opened openedMember)
    obtain ⟨sink, sinkFound⟩ := (Components.exists_component_iff built).mpr
      (built.closed.target_mem closed closedMember)
    refine ⟨member, ?_⟩
    simp only [placeFound, Bool.and_eq_true, List.any_eq_true]
    refine ⟨⟨source, sources.mpr ⟨opened, openedMember, openedLabel, sourceFound⟩, ?_⟩,
      sink, sinks.mpr ⟨closed, closedMember, closedLabel, sinkFound⟩, ?_⟩
    · rw [Components.componentReaches_eq sourceFound placeFound, before]
    · rw [Components.componentReaches_eq placeFound sinkFound, behind]

/-- The vertex lies on walks between a source and a sink, all along edges of the set. -/
def InFlow (kept : Set Edge) (vertex : Vertex) : Prop :=
  ∃ opened ∈ kept, ∃ closed ∈ kept,
    isSourceLabel opened.label = true ∧ isSinkLabel closed.label = true ∧
    (∃ path, Joins opened.source path vertex ∧ ∀ edge ∈ path, edge ∈ kept) ∧
    ∃ path, Joins vertex path closed.target ∧ ∀ edge ∈ path, edge ∈ kept

theorem InFlow.mono {kept more : Set Edge} {vertex : Vertex} (between : InFlow kept vertex)
    (sub : kept ⊆ more) : InFlow more vertex := by
  obtain ⟨opened, openedMember, closed, closedMember, isSource, isSink, ⟨before, beforeJoins,
    beforeInside⟩, behind, behindJoins, behindInside⟩ := between
  exact ⟨opened, sub openedMember, closed, sub closedMember, isSource, isSink,
    ⟨before, beforeJoins, fun edge member => sub (beforeInside edge member)⟩,
    behind, behindJoins, fun edge member => sub (behindInside edge member)⟩

/-- The vertex lies on a walk along some edges that leaves the source of an opening and enters
the target of a closing bracket among other edges. -/
def OnFlow (brackets along : Set Edge) (vertex : Vertex) : Prop :=
  ∃ opened ∈ brackets, ∃ closed ∈ brackets,
    isSourceLabel opened.label = true ∧ isSinkLabel closed.label = true ∧
    (∃ path, Joins opened.source path vertex ∧ ∀ edge ∈ path, edge ∈ along) ∧
    ∃ path, Joins vertex path closed.target ∧ ∀ edge ∈ path, edge ∈ along

section OnFlow

variable {brackets along : Set Edge} {vertex : Vertex}

theorem OnFlow.mono {more wider : Set Edge} (onFlow : OnFlow brackets along vertex)
    (sub : brackets ⊆ more) (within : along ⊆ wider) : OnFlow more wider vertex := by
  obtain ⟨opened, openedMember, closed, closedMember, isSource, isSink, ⟨before, beforeJoins,
    beforeInside⟩, behind, behindJoins, behindInside⟩ := onFlow
  exact ⟨opened, sub openedMember, closed, sub closedMember, isSource, isSink,
    ⟨before, beforeJoins, fun edge member => within (beforeInside edge member)⟩,
    behind, behindJoins, fun edge member => within (behindInside edge member)⟩

/-- Both ends of each edge of a walk between brackets lie on it. -/
theorem onFlow_of_joins {opened closed : Edge} (openedMember : opened ∈ brackets)
    (closedMember : closed ∈ brackets) (isSource : isSourceLabel opened.label = true)
    (isSink : isSinkLabel closed.label = true) {path : List Edge}
    (joins : Joins opened.source path closed.target) (inside : ∀ edge ∈ path, edge ∈ along)
    {edge : Edge} (member : edge ∈ path) :
    OnFlow brackets along edge.source ∧ OnFlow brackets along edge.target := by
  obtain ⟨before, behind, rfl, first, second⟩ := joins.split member
  refine ⟨⟨opened, openedMember, closed, closedMember, isSource, isSink,
    ⟨before, first, fun other early => inside other (by simp [early])⟩,
    edge :: behind, ⟨rfl, second⟩, fun other late => inside other (List.mem_append_right _ late)⟩,
    ⟨opened, openedMember, closed, closedMember, isSource, isSink,
    ⟨before ++ [edge], first.append (.single edge), fun other early => inside other ?_⟩,
    behind, second, fun other late => inside other (by simp [late])⟩⟩
  rcases List.mem_append.mp early with early | last
  · simp [early]
  · simp [List.mem_singleton.mp last]

theorem OnFlow.labelled (onFlow : OnFlow brackets along vertex) (loops : graph.LoopsOnly)
    (within : along ⊆ graph.allEdges) : OnFlow brackets (along ∩ graph.edgeSet) vertex := by
  have shorten : ∀ {start stop : Vertex},
      (∃ path, Joins start path stop ∧ ∀ edge ∈ path, edge ∈ along) →
      ∃ path, Joins start path stop ∧ ∀ edge ∈ path, edge ∈ along ∩ graph.edgeSet := by
    rintro start stop ⟨path, joins, inside⟩
    have inGraph : ∀ edge ∈ path, edge ∈ graph.edges :=
      fun edge onPath => within (inside edge onPath)
    exact ⟨withoutEpsilon path, joins_withoutEpsilon loops joins inGraph, fun edge member =>
      ⟨inside edge (List.mem_filter.mp member).1,
        mem_labelledEdges_of_withoutEpsilon inGraph member⟩⟩
  obtain ⟨opened, openedMember, closed, closedMember, isSource, isSink, before, behind⟩ := onFlow
  exact ⟨opened, openedMember, closed, closedMember, isSource, isSink, shorten before,
    shorten behind⟩

end OnFlow

theorem edgeSet_subset_allEdges (graph : Graph) : graph.edgeSet ⊆ graph.allEdges :=
  fun _ member => (mem_labelledEdges.mp member).1

/-- The vertices between a source and a sink are those on walks from brackets to brackets. -/
theorem mem_flowVertices_iff_onFlow (built : graph.Built) {vertex : Vertex} :
    vertex ∈ graph.flowVertices ↔ OnFlow graph.edgeSet graph.allEdges vertex := by
  have labelled : ∀ edge ∈ graph.edges,
      (isSourceLabel edge.label = true ∨ isSinkLabel edge.label = true) →
        edge ∈ graph.edgeSet := by
    intro edge member bracket
    refine mem_labelledEdges.mpr ⟨member, ?_⟩
    by_contra epsilon
    have same : edge.label = Grammar.epsilon := by simpa [Edge.isEpsilon] using epsilon
    rw [same] at bracket
    exact absurd bracket (by decide)
  rw [mem_flowVertices built]
  constructor
  · rintro ⟨opened, openedMember, closed, closedMember, isSource, isSink, before, behind⟩
    obtain ⟨_, _, beforeWalk⟩ := (Components.reaches_eq_true_iff built).mp before
    obtain ⟨_, _, behindWalk⟩ := (Components.reaches_eq_true_iff built).mp behind
    exact ⟨opened, labelled opened openedMember (Or.inl isSource), closed,
      labelled closed closedMember (Or.inr isSink), isSource, isSink, beforeWalk, behindWalk⟩
  · rintro ⟨opened, openedMember, closed, closedMember, isSource, isSink, before, behind⟩
    have inGraph := edgeSet_subset_allEdges graph openedMember
    have reached := (Components.reaches_iff built
      (built.closed.source_mem opened inGraph)).mpr before
    have middle := ((Components.reaches_eq_true_iff built).mp reached).2.1
    exact ⟨opened, inGraph, closed, edgeSet_subset_allEdges graph closedMember, isSource, isSink,
      reached, (Components.reaches_iff built middle).mpr behind⟩

theorem labelledEdges_keepFlows (graph : Graph) :
    graph.keepFlows.labelledEdges = graph.labelledEdges.filter fun edge =>
      graph.flowVertices.contains edge.source && graph.flowVertices.contains edge.target := by
  rw [keepFlows, labelledEdges_ofEdges, labelledEdges, List.filter_filter, List.filter_filter]
  refine List.filter_congr fun edge _ => ?_
  cases edge.isEpsilon <;> simp

theorem mem_keepFlows_iff (built : graph.Built) {edge : Edge} :
    edge ∈ graph.keepFlows.edgeSet ↔ edge ∈ graph.edgeSet ∧
      OnFlow graph.edgeSet graph.allEdges edge.source ∧
      OnFlow graph.edgeSet graph.allEdges edge.target := by
  rw [← mem_flowVertices_iff_onFlow built, ← mem_flowVertices_iff_onFlow built]
  change edge ∈ graph.keepFlows.labelledEdges ↔ edge ∈ graph.labelledEdges ∧ _
  rw [labelledEdges_keepFlows, List.mem_filter, Bool.and_eq_true, Std.TreeSet.contains_iff_mem,
    Std.TreeSet.contains_iff_mem]

theorem mem_keepFlows (built : graph.Built) (loops : graph.LoopsOnly) {edge : Edge} :
    edge ∈ graph.keepFlows.edgeSet ↔ edge ∈ graph.edgeSet ∧
      InFlow graph.edgeSet edge.source ∧ InFlow graph.edgeSet edge.target := by
  have inFlow : ∀ {vertex : Vertex},
      OnFlow graph.edgeSet graph.allEdges vertex ↔ InFlow graph.edgeSet vertex :=
    ⟨fun onFlow => (onFlow.labelled loops subset_rfl).mono subset_rfl Set.inter_subset_right,
      fun between => OnFlow.mono between subset_rfl (edgeSet_subset_allEdges graph)⟩
  rw [mem_keepFlows_iff built, inFlow, inFlow]

theorem isSourceLabel_wrapperOpen : isSourceLabel wrapperOpen = true := by
  have below : wrapperId < Text.halfWordBound := by decide
  simp [isSourceLabel, below]

theorem isSinkLabel_wrapperClose : isSinkLabel wrapperClose = true := by
  have below : wrapperId < Text.halfWordBound := by decide
  simp [isSinkLabel, below]

/-- Every edge of a wrapped walk runs between a source and a sink. -/
theorem mem_keepFlows_of_wrapped (built : graph.Built) {span : Span} {path : List Edge}
    (walk : WrappedWalk graph span path) :
    ∀ edge ∈ path, edge ∈ graph.keepFlows.labelledEdges := by
  obtain ⟨opened, closed, middle, pathEq, openedLabel, closedLabel⟩ :=
    wrapped_wordOf_iff.mp walk.wrapped
  have openedMember : opened ∈ path := by simp [pathEq]
  have closedMember : closed ∈ path := by simp [pathEq]
  have starts : opened.source = span.start := (pathEq ▸ walk.joins).1
  have stops : closed.target = span.stop := by
    have joins := walk.joins
    rw [pathEq, ← List.cons_append, Joins.append_iff] at joins
    obtain ⟨_, _, _, stop⟩ := joins
    exact stop
  have joins : Joins opened.source path closed.target := by
    rw [starts, stops]
    exact walk.joins
  intro edge member
  exact (mem_keepFlows_iff built).mpr ⟨walk.inside edge member,
    onFlow_of_joins (walk.inside opened openedMember) (walk.inside closed closedMember)
      (openedLabel ▸ isSourceLabel_wrapperOpen) (closedLabel ▸ isSinkLabel_wrapperClose) joins
      (fun other onPath => walk.mem_edges onPath) member⟩

end Wrapped

end Graph

/-! ## Flows between any brackets -/

/-- A balanced walk from a source to a sink, whatever the ids of their brackets. -/
structure FlowWalk (graph : Graph) (span : Span) (path : List Edge) : Prop
    extends BalancedWalk .taint graph span path where
  starts : ∃ label, (wordOf path).head? = some label ∧ isSourceLabel label = true
  stops : ∃ label, (wordOf path).getLast? = some label ∧ isSinkLabel label = true

theorem FlowWalk.within {graph other : Graph} {span : Span} {path : List Edge}
    (walk : FlowWalk graph span path)
    (inside : ∀ edge ∈ path, edge ∈ other.labelledEdges) : FlowWalk other span path :=
  ⟨walk.toBalancedWalk.within inside, walk.starts, walk.stops⟩

/-- The wrapper brackets are the only sources and sinks. -/
def Graph.WrapperOnly (graph : Graph) : Prop :=
  ∀ edge ∈ graph.labelledEdges, (isSourceLabel edge.label = true → edge.label = wrapperOpen) ∧
    (isSinkLabel edge.label = true → edge.label = wrapperClose)

/-- Where the wrapper brackets are the only sources and sinks, flows are balanced value
flows. -/
theorem FlowWalk.balanced {graph : Graph} {span : Span} {path : List Edge}
    (walk : FlowWalk graph span path) (only : graph.WrapperOnly) :
    BalancedWalk .valueFlow graph span path := by
  obtain ⟨first, isFirst, isSource⟩ := walk.starts
  obtain ⟨last, isLast, isSink⟩ := walk.stops
  obtain ⟨opened, openedMember, rfl⟩ := List.mem_map.mp (List.mem_of_mem_head? isFirst)
  obtain ⟨closed, closedMember, rfl⟩ := List.mem_map.mp (List.mem_of_getLast? isLast)
  refine ⟨walk.toCanonicalWalk, walk.nested, fun _ => ⟨?_, ?_⟩⟩
  · rw [isFirst, (only opened (walk.inside opened openedMember)).1 isSource]
  · rw [isLast, (only closed (walk.inside closed closedMember)).2 isSink]

namespace Graph

theorem mem_flowCopies {edge : Edge} {first next : Nat} {label : Label} :
    ((first, next), label) ∈ flowCopies edge ↔ label = edge.label ∧
      ((first = 1 ∧ next = 1) ∨ (first = 0 ∧ next = 1 ∧ isSourceLabel edge.label = true) ∨
        (first = 1 ∧ next = 2 ∧ isSinkLabel edge.label = true)) := by
  unfold flowCopies
  simp only [List.mem_append, List.mem_singleton, List.mem_ite_nil_right, Prod.mk.injEq]
  tauto

theorem flowCopies_below (edge : Edge) (copy : (Nat × Nat) × Label)
    (member : copy ∈ flowCopies edge) : copy.1.1 < 3 ∧ copy.1.2 < 3 := by
  obtain ⟨⟨first, next⟩, label⟩ := copy
  have layers := (mem_flowCopies.mp member).2
  simp only
  omega

section Run

open LayeredGraph

variable {path : List Edge} {word : List Label}

private theorem wordOf_run {first last : Nat} (run : Run flowCopies first path word last) :
    word = wordOf path := by
  induction run with
  | nil => rfl
  | cons isCopy _ induction => rw [wordOf_cons, (mem_flowCopies.mp isCopy).1, induction]

private theorem run_middle (path : List Edge) : Run flowCopies 1 path (wordOf path) 1 := by
  induction path with
  | nil => exact .nil 1
  | cons edge path induction =>
      exact .cons (mem_flowCopies.mpr ⟨rfl, .inl ⟨rfl, rfl⟩⟩) induction

private theorem sink_of_run {first last : Nat} (run : Run flowCopies first path word last)
    (stop : last = 2) : (first = 2 ∧ path = []) ∨
      ∃ inner closed, path = inner ++ [closed] ∧ isSinkLabel closed.label = true := by
  induction run with
  | nil => exact .inl ⟨stop, rfl⟩
  | @cons edge path label word first next last isCopy run induction =>
      right
      obtain ⟨rfl, layers⟩ := mem_flowCopies.mp isCopy
      rcases induction stop with ⟨isLast, rfl⟩ | ⟨inner, closed, rfl, isSink⟩
      · rcases layers with ⟨_, middle⟩ | ⟨_, middle, _⟩ | ⟨_, _, isSink⟩
        · omega
        · omega
        · exact ⟨[], edge, rfl, isSink⟩
      · exact ⟨edge :: inner, closed, rfl, isSink⟩

/-- Paths run through all three layers exactly if they begin with a source and end with a
sink behind it. -/
theorem run_flowCopies_iff : Run flowCopies 0 path word 2 ↔
    word = wordOf path ∧ ∃ (opened closed : Edge) (inner : List Edge),
      path = opened :: (inner ++ [closed]) ∧ isSourceLabel opened.label = true ∧
        isSinkLabel closed.label = true := by
  constructor
  · intro run
    refine ⟨wordOf_run run, ?_⟩
    cases run with
    | @cons opened tail label word first next last isCopy rest =>
        obtain ⟨_, ⟨outside, _⟩ | ⟨_, rfl, isSource⟩ | ⟨outside, _⟩⟩ := mem_flowCopies.mp isCopy
        · cases outside
        · rcases sink_of_run rest rfl with ⟨outside, _⟩ | ⟨inner, closed, rfl, isSink⟩
          · cases outside
          · exact ⟨opened, closed, inner, rfl, isSource, isSink⟩
        · cases outside
  · rintro ⟨rfl, opened, closed, inner, rfl, isSource, isSink⟩
    have enters := mem_flowCopies.mpr ⟨rfl, .inr (.inl ⟨rfl, rfl, isSource⟩)⟩
    have leaves := mem_flowCopies.mpr ⟨rfl, .inr (.inr ⟨rfl, rfl, isSink⟩)⟩
    have behind : Run flowCopies 1 [closed] (wordOf [closed]) 2 := .cons leaves (.nil 2)
    simpa using Run.cons enters ((run_middle inner).append behind)

end Run

/-- Below a balanced walk from the first to the last of the three layers lies a flow. -/
theorem exists_flowWalk {graph : Graph} {above span : Span} {path : List Edge}
    (walk : BalancedWalk .taint graph.tripled.graph above path)
    (starts : graph.tripled.split above.start = some (span.start, 0))
    (stops : graph.tripled.split above.stop = some (span.stop, 2)) :
    ∃ below, FlowWalk graph span below := by
  obtain ⟨stop, last, below, placed, joins, inside, run⟩ :=
    LayeredGraph.exists_run flowCopies_below walk.joins walk.inside starts
  have same := placed.symm.trans stops
  cases same
  obtain ⟨spelled, opened, closed, inner, rfl, isSource, isSink⟩ := run_flowCopies_iff.mp run
  have labelled : ∀ edge ∈ opened :: (inner ++ [closed]), edge.isEpsilon = false := by
    intro edge member
    have inWord : edge.label ∈ wordOf path := by
      rw [spelled]
      exact List.mem_map_of_mem member
    simpa [Edge.isEpsilon] using (walk.canonical _ inWord).ne_epsilon
  refine ⟨_, ⟨⟨⟨joins, fun edge member => ?_, ?_⟩, ?_, fun flow => by cases flow⟩,
    ⟨opened.label, rfl, isSource⟩, ⟨closed.label, by simp [List.getLast?_cons], isSink⟩⟩⟩
  · exact mem_labelledEdges.mpr ⟨inside edge member, labelled edge member⟩
  · rw [← spelled]
    exact walk.canonical
  · rw [← spelled]
    exact walk.nested

end Graph

end GrammarReach
