import GrammarReach.Proofs.Saturation.Derivability
import Mathlib.Data.List.Chain
import Mathlib.Data.Set.Lattice
import Mathlib.Order.Bounds.Basic

/-!
# The least fixpoint of the rules

A set of derivations is closed under the rules of a grammar when it has whatever they
infer from it in one step.  The least such set holds what the grammar derives.
-/

namespace GrammarReach

/-- A nonterminal with segments that are derived for it. -/
abbrev Entry := Nonterminal × List Span

namespace Grammar

/-- What the rules make of known entries and of the edges of a graph in one step. -/
inductive Infers (grammar : Grammar) (graph : Graph) (known : Set Entry) : Entry → Prop where
  | basic {rule : BasicRule} {edge : Edge} :
      rule ∈ grammar.basic → edge ∈ graph.edges → edge.label = rule.label →
      Infers grammar graph known (rule.head, [⟨edge.source, edge.target⟩])
  | prepend {rule : ExtensionRule} {segments : List Span} {span : Span} {source : Vertex} :
      rule ∈ grammar.prepend → (rule.body, segments) ∈ known →
      segments[rule.index]? = some span →
      ⟨source, span.start, rule.label⟩ ∈ graph.edges →
      Infers grammar graph known
        (rule.head, segments.set rule.index ⟨source, span.stop⟩)
  | append {rule : ExtensionRule} {segments : List Span} {span : Span} {target : Vertex} :
      rule ∈ grammar.append → (rule.body, segments) ∈ known →
      segments[rule.index]? = some span →
      ⟨span.stop, target, rule.label⟩ ∈ graph.edges →
      Infers grammar graph known
        (rule.head, segments.set rule.index ⟨span.start, target⟩)
  | insert {rule : InsertionRule} {segments : List Span} {edge : Edge} :
      rule ∈ grammar.insert → (rule.body, segments) ∈ known →
      rule.index ≤ segments.length → edge ∈ graph.edges → edge.label = rule.label →
      Infers grammar graph known
        (rule.head, segments.insertIdx rule.index ⟨edge.source, edge.target⟩)
  | concatenate {rule : ConcatenationRule} {result : List Span}
      (segments : Nat → List Span) :
      rule ∈ grammar.concatenate → rule.Proper →
      (∀ position name, rule.bodies[position]? = some name →
        (name, segments position) ∈ known) →
      rule.Connects segments result →
      Infers grammar graph known (rule.head, result)

/-- The set has all that the rules infer from it, as far as the segments are to be
kept. -/
def Closes (grammar : Grammar) (graph : Graph) (keeps : List Span → Prop)
    (known : Set Entry) : Prop :=
  ∀ entry, grammar.Infers graph known entry → keeps entry.2 → entry ∈ known

/-- The entries that every closed set has. -/
def leastClosed (grammar : Grammar) (graph : Graph) (keeps : List Span → Prop) :
    Set Entry :=
  ⋂₀ {known | grammar.Closes graph keeps known}

section LeastClosed

variable {grammar : Grammar} {graph : Graph} {keeps : List Span → Prop}
  {known later : Set Entry} {entry : Entry}

theorem Infers.mono (infers : grammar.Infers graph known entry) (sub : known ⊆ later) :
    grammar.Infers graph later entry := by
  cases infers with
  | basic member edgeMember label => exact .basic member edgeMember label
  | prepend member body found edgeMember =>
      exact .prepend member (sub body) found edgeMember
  | append member body found edgeMember => exact .append member (sub body) found edgeMember
  | insert member body inside edgeMember label =>
      exact .insert member (sub body) inside edgeMember label
  | concatenate segments member proper bodies connects =>
      exact .concatenate segments member proper
        (fun position name found => sub (bodies position name found)) connects

theorem leastClosed_subset (closes : grammar.Closes graph keeps known) :
    grammar.leastClosed graph keeps ⊆ known :=
  Set.sInter_subset_of_mem closes

theorem isLeast_leastClosed (grammar : Grammar) (graph : Graph)
    (keeps : List Span → Prop) :
    IsLeast {known | grammar.Closes graph keeps known} (grammar.leastClosed graph keeps) := by
  constructor
  · intro entry infers kept known closes
    exact closes entry (infers.mono (leastClosed_subset closes)) kept
  · intro known closes
    exact leastClosed_subset closes

theorem mem_leastClosed_of_infers
    (infers : grammar.Infers graph (grammar.leastClosed graph keeps) entry)
    (kept : keeps entry.2) : entry ∈ grammar.leastClosed graph keeps :=
  (isLeast_leastClosed grammar graph keeps).1 entry infers kept

theorem keeps_of_mem_leastClosed (member : entry ∈ grammar.leastClosed graph keeps) :
    keeps entry.2 := by
  have closes : grammar.Closes graph keeps
      {entry ∈ grammar.leastClosed graph keeps | keeps entry.2} := by
    intro other infers kept
    exact ⟨mem_leastClosed_of_infers (infers.mono fun _ known => known.1) kept, kept⟩
  exact (leastClosed_subset closes member).2

end LeastClosed

end Grammar

/-! ## Segments in a graph -/

/-- Both ends of the span are vertices of the graph. -/
def Graph.Spans (graph : Graph) (span : Span) : Prop :=
  span.start ∈ graph.vertices ∧ span.stop ∈ graph.vertices

/-- A walk leads from the stop of each segment to the start of the next one. -/
def Graph.Linked (graph : Graph) (segments : List Span) : Prop :=
  segments.IsChain fun left right => graph.Reaches left.stop right.start

section Segments

variable {grammar : Grammar} {graph : Graph} {keeps : List Span → Prop}

/-- Between vertices of the graph, to follow is to be linked by a walk. -/
theorem Graph.follows_iff_linked (built : graph.Built) {segments : List Span}
    (inside : ∀ span ∈ segments, graph.Spans span) :
    graph.Follows segments ↔ graph.Linked segments := by
  induction segments with
  | nil => simp [Follows, Linked]
  | cons first segments induction =>
      cases segments with
      | nil => simp [Follows, Linked]
      | cons second rest =>
          have linked := @Components.reaches_iff graph first.stop second.start built
            (inside first (by simp)).2
          have later := induction fun span member => inside span (by simp [member])
          simp only [Follows, Linked, List.tail_cons, List.zip_cons_cons,
            List.mem_cons, forall_eq_or_imp, List.isChain_cons_cons] at later ⊢
          rw [linked, ← later]

/-- Every edge has the property, and two spans that meet hand it on to the span of
both. -/
structure Graph.Composes (graph : Graph) (holds : Span → Prop) : Prop where
  edge : ∀ edge ∈ graph.edges, holds ⟨edge.source, edge.target⟩
  join : ∀ first second, first.stop = second.start → holds first → holds second →
    holds ⟨first.start, second.stop⟩

private theorem holds_of_spanChain {holds : Span → Prop} (composes : graph.Composes holds)
    {spans : List Span} {span : Span} (chain : SpanChain spans span)
    (inside : ∀ other ∈ spans, holds other) : holds span := by
  induction chain with
  | single span => exact inside span (by simp)
  | @cons first rest spans meets _ induction =>
      apply composes.join first rest meets
      · exact inside first (by simp)
      · exact induction fun other member => inside other (by simp [member])

theorem Grammar.Infers.forall_span {holds : Span → Prop} (composes : graph.Composes holds)
    {known : Set Entry} (inside : ∀ entry ∈ known, ∀ span ∈ entry.2, holds span)
    {entry : Entry} (infers : grammar.Infers graph known entry) :
    ∀ span ∈ entry.2, holds span := by
  cases infers with
  | @basic rule edge _ edgeMember _ =>
      intro span member
      rw [List.mem_singleton] at member
      exact member ▸ composes.edge edge edgeMember
  | @prepend rule segments span source _ body found edgeMember =>
      intro other member
      rcases List.mem_or_eq_of_mem_set member with old | rfl
      · exact inside _ body other old
      · exact composes.join ⟨source, span.start⟩ span rfl (composes.edge _ edgeMember)
          (inside _ body span (List.mem_of_getElem? found))
  | @append rule segments span target _ body found edgeMember =>
      intro other member
      rcases List.mem_or_eq_of_mem_set member with old | rfl
      · exact inside _ body other old
      · exact composes.join span ⟨span.stop, target⟩ rfl
          (inside _ body span (List.mem_of_getElem? found)) (composes.edge _ edgeMember)
  | @insert rule segments edge _ body within edgeMember _ =>
      intro other member
      rw [List.mem_insertIdx within] at member
      rcases member with rfl | old
      · exact composes.edge edge edgeMember
      · exact inside _ body other old
  | @concatenate rule result segments _ proper bodies connects =>
      intro span member
      obtain ⟨chain, inWiring, spanned⟩ :=
        exists_related (connects.spanChains proper) member
      obtain ⟨references, chainMember, rfl⟩ := List.mem_map.mp inWiring
      apply holds_of_spanChain composes spanned
      intro other named
      obtain ⟨reference, inChain, found⟩ := List.mem_filterMap.mp named
      have below := proper.body_lt reference
        (List.mem_flatten.mpr ⟨references, chainMember, inChain⟩)
      exact inside _ (bodies reference.body _ (List.getElem?_eq_getElem below)) other
        (List.mem_of_getElem? found)

theorem Grammar.forall_span_of_mem_leastClosed {holds : Span → Prop}
    (composes : graph.Composes holds) {entry : Entry}
    (member : entry ∈ grammar.leastClosed graph keeps) : ∀ span ∈ entry.2, holds span := by
  have closes : grammar.Closes graph keeps {entry | ∀ span ∈ entry.2, holds span} :=
    fun _ infers _ => infers.forall_span composes fun _ known => known
  exact leastClosed_subset closes member

private theorem composes_spans (closed : graph.Closed) : graph.Composes graph.Spans := by
  constructor
  · intro edge member
    exact ⟨closed.source_mem edge member, closed.target_mem edge member⟩
  · intro first second _ before behind
    exact ⟨before.1, behind.2⟩

theorem Grammar.spans_of_mem_leastClosed (closed : graph.Closed) {entry : Entry}
    (member : entry ∈ grammar.leastClosed graph keeps) :
    ∀ span ∈ entry.2, graph.Spans span :=
  forall_span_of_mem_leastClosed (composes_spans closed) member

end Segments

/-! ## Derivations and the least closed set -/

section Derives

variable {grammar : Grammar} {graph : Graph}

private theorem mem_leastClosed_of_follows (built : graph.Built) {entry : Entry}
    (infers : grammar.Infers graph (grammar.leastClosed graph graph.Linked) entry)
    (follows : graph.Follows entry.2) :
    entry ∈ grammar.leastClosed graph graph.Linked := by
  apply Grammar.mem_leastClosed_of_infers infers
  apply (Graph.follows_iff_linked built ?_).mp follows
  exact infers.forall_span (composes_spans built.closed) fun _ member =>
    Grammar.spans_of_mem_leastClosed built.closed member

private theorem mem_leastClosed_of_derives (built : graph.Built) {name : Nonterminal}
    {segments : List Span} {used : List Edge}
    (derives : grammar.Derives graph name segments used) :
    (name, segments) ∈ grammar.leastClosed graph graph.Linked := by
  induction derives with
  | @basic rule edge member edgeMember label =>
      exact mem_leastClosed_of_follows built (.basic member edgeMember label)
        (graph.follows_single _)
  | prepend member _ found edgeMember follows induction =>
      exact mem_leastClosed_of_follows built (.prepend member induction found edgeMember)
        follows
  | append member _ found edgeMember follows induction =>
      exact mem_leastClosed_of_follows built (.append member induction found edgeMember)
        follows
  | insert member _ inside edgeMember label follows induction =>
      exact mem_leastClosed_of_follows built
        (.insert member induction inside edgeMember label) follows
  | concatenate segments _ member proper _ connects follows induction =>
      exact mem_leastClosed_of_follows built
        (.concatenate segments member proper induction connects) follows

private theorem closes_derives (built : graph.Built) :
    grammar.Closes graph graph.Linked
      {entry | ∃ used, grammar.Derives graph entry.1 entry.2 used} := by
  intro entry infers linked
  have follows : graph.Follows entry.2 := by
    apply (Graph.follows_iff_linked built ?_).mpr linked
    apply infers.forall_span (composes_spans built.closed)
    rintro known ⟨used, derives⟩
    exact Grammar.spans_of_mem_leastClosed built.closed
      (mem_leastClosed_of_derives built derives)
  cases infers with
  | basic member edgeMember label => exact ⟨_, .basic member edgeMember label⟩
  | prepend member body found edgeMember =>
      obtain ⟨used, derives⟩ := body
      exact ⟨_, .prepend member derives found edgeMember follows⟩
  | append member body found edgeMember =>
      obtain ⟨used, derives⟩ := body
      exact ⟨_, .append member derives found edgeMember follows⟩
  | insert member body inside edgeMember label =>
      obtain ⟨used, derives⟩ := body
      exact ⟨_, .insert member derives inside edgeMember label follows⟩
  | @concatenate rule result segments member proper bodies connects =>
      have bodyUse : ∀ position, ∃ used, ∀ name, rule.bodies[position]? = some name →
          grammar.Derives graph name (segments position) used := by
        intro position
        cases found : rule.bodies[position]? with
        | none => exact ⟨[], fun name impossible => by cases impossible⟩
        | some name =>
            obtain ⟨used, derives⟩ := bodies position name found
            refine ⟨used, ?_⟩
            intro other same
            cases same
            exact derives
      obtain ⟨used, derives⟩ := Classical.axiomOfChoice bodyUse
      exact ⟨_, .concatenate segments used member proper derives connects follows⟩

/-- The grammar derives what belongs to the least set that is closed as far as segments
are linked. -/
theorem Grammar.mem_leastClosed_iff_derives (built : graph.Built) {name : Nonterminal}
    {segments : List Span} :
    (name, segments) ∈ grammar.leastClosed graph graph.Linked ↔
      ∃ used, grammar.Derives graph name segments used := by
  constructor
  · intro member
    exact leastClosed_subset (closes_derives built) member
  · rintro ⟨used, derives⟩
    exact mem_leastClosed_of_derives built derives

end Derives

end GrammarReach
