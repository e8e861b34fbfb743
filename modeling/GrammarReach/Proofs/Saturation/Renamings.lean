import GrammarReach.Proofs.Saturation.Solutions

/-!
# Renamed vertices

When the edges of one graph become edges of another one by renaming the vertices, the
derivations over the first graph become derivations over the other one.  More edges never
cost a derivation.
-/

namespace GrammarReach

def Span.rename (name : Vertex → Vertex) (span : Span) : Span :=
  ⟨name span.start, name span.stop⟩

def Edge.rename (name : Vertex → Vertex) (edge : Edge) : Edge :=
  ⟨name edge.source, name edge.target, edge.label⟩

@[simp] theorem Span.map_rename_id (segments : List Span) :
    segments.map (Span.rename id) = segments :=
  List.map_id segments

section Wirings

variable {name : Vertex → Vertex} {segments : Nat → List Span}

private theorem span?_rename (reference : SegmentRef) :
    reference.span? (fun position => (segments position).map (Span.rename name)) =
      (reference.span? segments).map (Span.rename name) := by
  simp [SegmentRef.span?]

private theorem chainSpan?_rename (chain : List SegmentRef) :
    SegmentRef.chainSpan? (fun position => (segments position).map (Span.rename name)) chain =
      (SegmentRef.chainSpan? segments chain).map (Span.rename name) := by
  unfold SegmentRef.chainSpan?
  simp only [span?_rename, Option.bind_eq_bind]
  cases chain.head? with
  | none => rfl
  | some first =>
      cases chain.getLast? with
      | none => rfl
      | some last =>
          simp only [Option.bind_some]
          cases first.span? segments with
          | none => rfl
          | some firstSpan =>
              cases last.span? segments with
              | none => rfl
              | some lastSpan => rfl

private theorem mapM_chainSpan?_rename {chains : List (List SegmentRef)} {result : List Span}
    (chained : chains.mapM (SegmentRef.chainSpan? segments) = some result) :
    chains.mapM (SegmentRef.chainSpan? fun position =>
      (segments position).map (Span.rename name)) = some (result.map (Span.rename name)) := by
  induction chains generalizing result with
  | nil =>
      simp only [List.mapM_nil, Option.pure_def, Option.some.injEq] at chained ⊢
      rw [← chained]
      rfl
  | cons chain chains induction =>
      rw [List.mapM_cons] at chained ⊢
      simp only [Option.bind_eq_bind, Option.bind_eq_some_iff] at chained
      obtain ⟨span, found, rest, restChained, same⟩ := chained
      cases same
      simp [chainSpan?_rename, found, induction restChained]

theorem ConcatenationRule.Connects.rename {rule : ConcatenationRule} {result : List Span}
    (connects : rule.Connects segments result) (name : Vertex → Vertex) :
    rule.Connects (fun position => (segments position).map (Span.rename name))
      (result.map (Span.rename name)) where
  arities position inside := by
    rw [List.length_map]
    exact connects.arities position inside
  linked link member left right leftFound rightFound := by
    rw [span?_rename, Option.map_eq_some_iff] at leftFound rightFound
    obtain ⟨first, firstFound, rfl⟩ := leftFound
    obtain ⟨second, secondFound, rfl⟩ := rightFound
    exact congrArg name (connects.linked link member first second firstFound secondFound)
  chained := mapM_chainSpan?_rename connects.chained

end Wirings

section Derivations

variable {grammar : Grammar} {graph target : Graph} {name : Vertex → Vertex}

def Entry.rename (name : Vertex → Vertex) (entry : Entry) : Entry :=
  (entry.1, entry.2.map (Span.rename name))

/-- What is inferred over a graph is inferred with renamed vertices over another one. -/
theorem Grammar.Infers.rename
    (edges : ∀ edge ∈ graph.edges, edge.rename name ∈ target.edges) {known later : Set Entry}
    (held : ∀ entry ∈ known, Entry.rename name entry ∈ later) {entry : Entry}
    (infers : grammar.Infers graph known entry) :
    grammar.Infers target later (Entry.rename name entry) := by
  cases infers with
  | basic member edgeMember label =>
      exact .basic member (edges _ edgeMember) label
  | @prepend rule segments span source member body found edgeMember =>
      rw [Entry.rename, List.map_set]
      have place : (segments.map (Span.rename name))[rule.index]? = some (span.rename name) := by
        rw [List.getElem?_map, found, Option.map_some]
      exact .prepend member (held _ body) place (edges _ edgeMember)
  | @append rule segments span stop member body found edgeMember =>
      rw [Entry.rename, List.map_set]
      have place : (segments.map (Span.rename name))[rule.index]? = some (span.rename name) := by
        rw [List.getElem?_map, found, Option.map_some]
      exact .append member (held _ body) place (edges _ edgeMember)
  | @insert rule segments edge member body inside edgeMember label =>
      rw [Entry.rename, List.map_insertIdx]
      have insideRenamed : rule.index ≤ (segments.map (Span.rename name)).length := by
        rw [List.length_map]
        exact inside
      exact .insert member (held _ body) insideRenamed (edges _ edgeMember)
        label
  | @concatenate rule result segments member proper bodies connects =>
      refine .concatenate _ member proper ?_ (connects.rename name)
      exact fun position body found => held _ (bodies position body found)

theorem Grammar.mem_leastClosed_rename
    (edges : ∀ edge ∈ graph.edges, edge.rename name ∈ target.edges)
    {keeps wider : List Span → Prop}
    (kept : ∀ segments, keeps segments → wider (segments.map (Span.rename name)))
    {entry : Entry} (member : entry ∈ grammar.leastClosed graph keeps) :
    Entry.rename name entry ∈ grammar.leastClosed target wider := by
  have closes : grammar.Closes graph keeps
      {entry | Entry.rename name entry ∈ grammar.leastClosed target wider} := by
    intro entry infers held
    exact mem_leastClosed_of_infers (infers.rename edges fun _ known => known)
      (kept _ held)
  exact leastClosed_subset closes member

theorem Graph.Reaches.rename (edges : ∀ edge ∈ graph.edges, edge.rename name ∈ target.edges)
    {start stop : Vertex} (reaches : graph.Reaches start stop) :
    target.Reaches (name start) (name stop) := by
  obtain ⟨path, joins, inside⟩ := reaches
  refine ⟨_, joins.map name, fun edge member => ?_⟩
  obtain ⟨below, onPath, rfl⟩ := List.mem_map.mp member
  exact edges below (inside below onPath)

theorem Graph.Linked.rename (edges : ∀ edge ∈ graph.edges, edge.rename name ∈ target.edges)
    {segments : List Span} (linked : graph.Linked segments) :
    target.Linked (segments.map (Span.rename name)) := by
  refine List.isChain_map _ |>.mpr (linked.imp fun _ _ reaches => ?_)
  exact Graph.Reaches.rename edges reaches

theorem Grammar.leastClosed_mono_edges (edges : ∀ edge ∈ graph.edges, edge ∈ target.edges)
    {keeps wider : List Span → Prop} (kept : ∀ segments, keeps segments → wider segments) :
    grammar.leastClosed graph keeps ⊆ grammar.leastClosed target wider := by
  intro entry member
  have renamed : Entry.rename id entry ∈ grammar.leastClosed target wider :=
    mem_leastClosed_rename edges (by simpa using kept) member
  simpa [Entry.rename] using renamed

theorem Graph.Linked.mono (edges : ∀ edge ∈ graph.edges, edge ∈ target.edges)
    {segments : List Span} (linked : graph.Linked segments) : target.Linked segments := by
  have renamed : target.Linked (segments.map (Span.rename id)) :=
    Graph.Linked.rename edges linked
  simpa using renamed

end Derivations

end GrammarReach
