import GrammarReach.Proofs.Analysis.ValueFlow

/-!
# The filter for wrapped spans

Of a list of spans the filter keeps those that a walk leads along from an opening to a closing
wrapper bracket, each once and where it stands first.
-/

namespace GrammarReach

namespace Graph

open BracketLanguage

/-- A walk of the graph leads along the span.  Its first and its last edge are wrapper
brackets, and all edges between them are epsilon edges or have canonical labels. -/
def HasWrappedPath (graph : Graph) (span : Span) : Prop :=
  ∃ (opened closed : Edge) (inner : List Edge),
    Joins span.start (opened :: (inner ++ [closed])) span.stop ∧
    (∀ edge ∈ opened :: (inner ++ [closed]), edge ∈ graph.edges) ∧
    opened.label = "ob--0" ∧ closed.label = "cb--0" ∧
    ∀ edge ∈ inner, edge.label = Grammar.epsilon ∨ CanonicalLabel edge.label

section Filter

variable {graph : Graph}

private theorem wrapperOpen_eq : wrapperOpen = "ob--0" := by
  decide

private theorem wrapperClose_eq : wrapperClose = "cb--0" := by
  decide

theorem mem_wrappedSpans_iff_hasWrappedPath (built : graph.Built) {span : Span} :
    span ∈ graph.wrappedSpans ↔ graph.HasWrappedPath span := by
  rw [mem_wrappedSpans_iff built]
  simp only [wrapped_wordOf_iff, wrapperOpen_eq, wrapperClose_eq]
  constructor
  · rintro ⟨_, joins, inside, known, opened, closed, inner, rfl, isOpened, isClosed⟩
    refine ⟨opened, closed, inner, joins, inside, isOpened, isClosed, fun edge member => ?_⟩
    exact (known edge.label (List.mem_map_of_mem (by simp [member]))).symm
  · rintro ⟨opened, closed, inner, joins, inside, isOpened, isClosed, known⟩
    refine ⟨_, joins, inside, fun label member => ?_, opened, closed, inner, rfl, isOpened,
      isClosed⟩
    obtain ⟨edge, onPath, rfl⟩ := List.mem_map.mp member
    rcases List.mem_cons.mp onPath with rfl | later
    · exact .inl (isOpened ▸ wrapperOpen_eq ▸ .opening .bracket (by decide))
    rcases List.mem_append.mp later with inInner | last
    · exact (known edge inInner).symm
    · obtain rfl := List.mem_singleton.mp last
      exact .inl (isClosed ▸ wrapperClose_eq ▸ .closing .bracket (by decide))

private theorem firstOccurrences_eq (seen : SpanSet) (spans : List Span) :
    firstOccurrences seen spans = (spans.filter fun span => span ∉ seen).eraseDups := by
  induction spans generalizing seen with
  | nil => rfl
  | cons first rest induction =>
      unfold firstOccurrences
      simp only [Std.TreeSet.contains_iff_mem]
      by_cases known : first ∈ seen
      · rw [if_pos known, induction, List.filter_cons_of_neg (by simpa using known)]
      · rw [if_neg known, induction, List.filter_cons_of_pos (by simpa using known),
          List.eraseDups_cons, List.filter_filter]
        congr 2
        refine List.filter_congr fun span _ => ?_
        by_cases same : span = first
        · simp [same]
        · simp [same, Ne.symm same]

private theorem nodup_firstOccurrences (seen : SpanSet) (spans : List Span) :
    (firstOccurrences seen spans).Nodup := by
  induction spans generalizing seen with
  | nil => exact .nil
  | cons first rest induction =>
      unfold firstOccurrences
      split
      · exact induction seen
      · refine List.nodup_cons.mpr ⟨fun again => ?_, induction _⟩
        exact (mem_firstOccurrences.mp again).2 Std.TreeSet.mem_insert_self

open Classical in
/-- The search for wrapped spans ends, and the filter keeps of any list the spans with wrapped
paths, in their order and each once. -/
theorem filterWrapped_eq (built : graph.Built) (spans : List Span) :
    SolveEnds graph (wrapper graph.allBrackets.ids) { recordProvenance := false } ∧
      graph.filterWrapped spans =
        (spans.filter fun span => graph.HasWrappedPath span).eraseDups ∧
      (graph.filterWrapped spans).Nodup := by
  have wrapped : ∀ span ∈ spans, graph.wrappedSpans.contains span =
      decide (graph.HasWrappedPath span) := by
    intro span _
    rw [Bool.eq_iff_iff, Std.TreeSet.contains_iff_mem, decide_eq_true_iff,
      mem_wrappedSpans_iff_hasWrappedPath built]
  refine ⟨(wordGrammar_wrapper _).hasArities.solveEnds built _, ?_, nodup_firstOccurrences _ _⟩
  unfold filterWrapped
  rw [firstOccurrences_eq, List.filter_eq_self.mpr (by simp), List.filter_congr wrapped]

end Filter

/-- Brackets around a cycle and an epsilon edge, brackets with nothing between them, and
brackets around a label that is not canonical. -/
def wrappedEdges : List Edge :=
  [⟨0, 1, "ob--0"⟩, ⟨1, 2, ""⟩, ⟨2, 2, "cp--3"⟩, ⟨2, 3, "cb--0"⟩, ⟨4, 5, "ob--0"⟩,
    ⟨5, 4, "cb--0"⟩, ⟨6, 7, "ob--0"⟩, ⟨7, 8, "ob--03"⟩, ⟨8, 9, "cb--0"⟩]

open Classical in
/-- Of some spans with repeats, two have wrapped paths. -/
theorem filterWrapped_eq_wrappedEdges :
    (ofEdges wrappedEdges).Built ∧
      ([⟨6, 9⟩, ⟨4, 4⟩, ⟨0, 3⟩, ⟨4, 4⟩, ⟨0, 2⟩, ⟨0, 3⟩].filter fun span =>
        (ofEdges wrappedEdges).HasWrappedPath span).eraseDups = [⟨4, 4⟩, ⟨0, 3⟩] :=
  ⟨built_ofEdges _,
    (filterWrapped_eq (built_ofEdges _) _).2.1.symm.trans (by decide +kernel)⟩

end Graph

end GrammarReach
