import GrammarReach.Proofs.Analysis.Sides
import GrammarReach.Proofs.Bracket.AcceptedWalks
import GrammarReach.Proofs.Saturation.RecordedOrigins

/-!
# What a refining side answers exactly

On a component that knows its brackets a side answers the spans of accepted walks, and
the edges that support answers are those of accepted walks between them.  A session that
only ever solved such components in its mode gives the same results from memory.
-/

namespace GrammarReach

/-! ## Components with the same edges -/

section SameEdges

variable {component other : BracketComponent}

theorem BracketComponent.Exact.mem_ids (exact : component.Exact) {family : BracketFamily}
    {id : Nat} : id ∈ component.ids.ofFamily family ↔ id < Text.halfWordBound ∧
      (family.openLabel id ∈ wordOf component.graph.labelledEdges ∨
        family.closeLabel id ∈ wordOf component.graph.labelledEdges) := by
  refine ⟨fun member => ⟨exact.bounded family id member, exact.occurs family id member⟩, ?_⟩
  rintro ⟨below, occurs⟩
  have known : ∀ label, label ∈ wordOf component.graph.labelledEdges →
      CanonicalLabel label → component.ids.Covers label := by
    intro label inWord canonical
    obtain ⟨edge, member, rfl⟩ := List.mem_map.mp inWord
    exact exact.covers edge member canonical
  rcases occurs with opened | closed
  · exact (known _ opened (.opening family below)).mem_of_open exact.bounded
  · exact (known _ closed (.closing family below)).mem_of_close exact.bounded

theorem BracketComponent.Exact.ids_subset_of_labels (exact : component.Exact)
    (otherExact : other.Exact) (sub : ∀ label ∈ wordOf component.graph.labelledEdges,
      label ∈ wordOf other.graph.labelledEdges) (family : BracketFamily) :
    ∀ id ∈ component.ids.ofFamily family, id ∈ other.ids.ofFamily family := by
  intro id member
  obtain ⟨below, occurs⟩ := exact.mem_ids.mp member
  exact otherExact.mem_ids.mpr ⟨below, occurs.imp (sub _) (sub _)⟩

theorem BracketComponent.Exact.ids_subset (exact : component.Exact) (otherExact : other.Exact)
    (sub : ∀ edge ∈ component.graph.labelledEdges, edge ∈ other.graph.labelledEdges)
    (family : BracketFamily) :
    ∀ id ∈ component.ids.ofFamily family, id ∈ other.ids.ofFamily family :=
  exact.ids_subset_of_labels otherExact (fun _ => wordOf_subset sub) family

end SameEdges

theorem GrammarChoice.Accepts.of_perm {choice : GrammarChoice} {family : BracketFamily}
    {ids other : BracketIds} {word : List Label} (accepts : choice.Accepts family ids word)
    (perm : (ids.ofFamily family.other).Perm (other.ofFamily family.other)) :
    choice.Accepts family other word := by
  refine ⟨accepts.nested, fun augmented => ?_⟩
  have digits : classDigit (ids.ofFamily family.other) choice.classCount =
      classDigit (other.ofFamily family.other) choice.classCount := by
    funext id
    rw [classDigit, classDigit, residueClass, residueClass, rank, rank, perm.countP_eq]
  obtain ⟨counted, cancels⟩ := accepts.cancels augmented
  exact ⟨fun bracket member => digits ▸ counted bracket member, digits ▸ cancels⟩

section Walks

variable {choice : GrammarChoice} {family : BracketFamily} {component other : BracketComponent}
  {span : Span} {path : List Edge}

theorem AcceptedWalk.transfer (walk : AcceptedWalk choice family component span path)
    (exact : component.Exact) (otherExact : other.Exact)
    (same : ∀ edge, edge ∈ component.graph.labelledEdges ↔ edge ∈ other.graph.labelledEdges) :
    AcceptedWalk choice family other span path := by
  refine ⟨walk.within fun edge member => (same edge).mp (walk.inside edge member), ?_⟩
  refine walk.accepted.of_perm ?_
  rw [List.perm_ext_iff_of_nodup (exact.distinct _) (otherExact.distinct _)]
  exact fun id => ⟨exact.ids_subset otherExact (fun edge => (same edge).mp) _ id,
    otherExact.ids_subset exact (fun edge => (same edge).mpr) _ id⟩

end Walks

/-! ## Results -/

/-- The answers between different vertices are the spans of accepted walks, and the edges
that support answers are those of accepted walks between them. -/
structure SideResult.Exact (choice : GrammarChoice) (family : BracketFamily)
    (component : BracketComponent) (result : SideResult) : Prop where
  mem_spans : ∀ span, span.isReflexive = false →
    (span ∈ result.spans ↔ ∃ path, AcceptedWalk choice family component span path)
  mem_supportingEdges : ∀ targets edge,
    edge ∈ result.provenance.supportingEdges targets ↔
      ∃ span ∈ targets, span.isReflexive = false ∧
        ∃ path, AcceptedWalk choice family component span path ∧ edge ∈ path

theorem SideResult.Exact.transfer {choice : GrammarChoice} {family : BracketFamily}
    {component other : BracketComponent} {result : SideResult}
    (result_exact : result.Exact choice family component) (exact : component.Exact)
    (otherExact : other.Exact)
    (same : ∀ edge, edge ∈ component.graph.labelledEdges ↔ edge ∈ other.graph.labelledEdges) :
    result.Exact choice family other := by
  have walks : ∀ {span path}, AcceptedWalk choice family component span path ↔
      AcceptedWalk choice family other span path := fun {span path} =>
    ⟨fun walk => walk.transfer exact otherExact same,
      fun walk => walk.transfer otherExact exact fun edge => (same edge).symm⟩
  refine ⟨fun span irreflexive => ?_, fun targets edge => ?_⟩
  · rw [result_exact.mem_spans span irreflexive]
    exact exists_congr fun path => walks
  · rw [result_exact.mem_supportingEdges targets edge]
    simp only [walks]

namespace RefiningSide

/-- What a side computes on a component that knows its brackets is exact. -/
theorem exact_solve (side : RefiningSide) (choice : GrammarChoice)
    {component : BracketComponent} (exact : component.Exact) :
    (side.solve choice component).Exact choice (side.family choice.alphaFamily) component := by
  have matching :=
    choice.matching_balancing (side.family choice.alphaFamily) component.ids
  have sound := @exists_acceptedWalk_of_derives choice (side.family choice.alphaFamily)
    component
  have complete := @derives_of_acceptedWalk choice (side.family choice.alphaFamily) component
  unfold solve
  rw [grammar_eq]
  generalize choice.balancing (side.family choice.alphaFamily) component.ids = grammar
    at matching sound complete ⊢
  have arities := matching.shape.hasArities
  obtain ⟨provenance, known⟩ := exists_provenance_solve (arities.solveEnds exact.built {})
  have answers : ∀ span, span ∈ (GrammarReach.solve component.graph grammar {}).spans ↔
      ∃ used, grammar.Derives component.graph Grammar.startName [span] used :=
    fun span => mem_spans_solve exact.built arities
  simp only [known, Option.getD_some]
  refine ⟨fun span irreflexive => ?_, fun targets edge => ⟨fun member => ?_, ?_⟩⟩
  · rw [answers span]
    constructor
    · rintro ⟨used, derives⟩
      obtain ⟨path, walk, _⟩ := sound exact derives
      exact ⟨path, walk⟩
    · rintro ⟨path, walk⟩
      obtain ⟨used, derives, _⟩ := complete exact walk irreflexive
      exact ⟨used, derives⟩
  · have labelled := (Provenance.recorded_of_mem_supportingEdges member).2
    obtain ⟨span, target, irreflexive, used, derives, inUsed⟩ :=
      exists_derives_of_supportingEdges exact.built arities known member
    obtain ⟨path, walk, uses⟩ := sound exact derives
    exact ⟨span, target, irreflexive, path, walk, uses edge inUsed labelled⟩
  · rintro ⟨span, target, irreflexive, path, walk, onPath⟩
    obtain ⟨used, derives, covers⟩ := complete exact walk irreflexive
    have labelled := (Graph.mem_labelledEdges.mp (walk.inside edge onPath)).2
    exact mem_supportingEdges_solve exact.built arities known derives irreflexive
      ((answers span).mpr ⟨used, derives⟩) target (covers edge onPath) labelled

end RefiningSide

/-! ## Sessions -/

namespace Session

/-- Every remembered result is exact in the current mode, for a component that was asked
for. -/
def Faithful (session : Session) : Prop :=
  ∀ side key result, (session.memo side)[key]? = some result →
    ∃ component : BracketComponent, component.Exact ∧ component.graph ∈ session.asked ∧
      component.graph.contentHash = key ∧
      result.Exact session.grammars (side.family session.grammars.alphaFamily) component

/-- One session comes later than another in the same mode: it has asked for more and is as
faithful. -/
structure Continues (earlier later : Session) : Prop where
  settings : later.settings = earlier.settings
  grammars : later.grammars = earlier.grammars
  asked : ∀ graph ∈ earlier.asked, graph ∈ later.asked
  faithful : earlier.Faithful → later.Faithful

theorem Continues.refl (session : Session) : session.Continues session :=
  ⟨rfl, rfl, fun _ member => member, id⟩

theorem Continues.trans {first second third : Session} (before : first.Continues second)
    (behind : second.Continues third) : first.Continues third :=
  ⟨behind.settings.trans before.settings, behind.grammars.trans before.grammars,
    fun graph member => behind.asked graph (before.asked graph member),
    fun faithful => behind.faithful (before.faithful faithful)⟩

theorem faithful_ofSettings (settings : Settings) : (ofSettings settings).Faithful := by
  intro side key result found
  cases side <;> simp [memo, ofSettings] at found

/-- Asking for a component that knows its brackets leads to a later session. -/
theorem continues_solve (session : Session) (side : RefiningSide)
    {component : BracketComponent} (exact : component.Exact) :
    session.Continues (session.solve side component).2 := by
  refine ⟨settings_solve session side component, grammars_solve session side component, ?_, ?_⟩
  · intro graph member
    rw [asked_solve]
    exact .tail _ member
  · intro faithful other key result found
    rw [grammars_solve, asked_solve]
    rcases remembered_of_solve found with remembered | ⟨rfl, rfl, rfl⟩
    · obtain ⟨known, isExact, member, hash, result_exact⟩ := faithful other key result remembered
      exact ⟨known, isExact, .tail _ member, hash, result_exact⟩
    · exact ⟨component, exact, .head _, rfl, side.exact_solve session.grammars exact⟩

theorem exact_of_solve {session : Session} (faithful : session.Faithful) (side : RefiningSide)
    {component : BracketComponent} (exact : component.Exact)
    (free : CollisionFree (session.solve side component).2.asked) :
    (session.solve side component).1.Exact session.grammars
      (side.family session.grammars.alphaFamily) component := by
  rcases memo_solve session side component with ⟨remembered, _⟩ | ⟨computed, _⟩
  · obtain ⟨known, isExact, member, hash, result_exact⟩ := faithful side _ _ remembered
    rw [asked_solve] at free
    refine result_exact.transfer isExact exact fun edge => ⟨?_, ?_⟩
    · exact free known.graph (.tail _ member) component.graph (.head _) hash edge
    · exact free component.graph (.head _) known.graph (.tail _ member) hash.symm edge
  · rw [computed]
    exact side.exact_solve session.grammars exact

end Session

end GrammarReach
