import GrammarReach.Analysis.Session
import GrammarReach.Proofs.Bracket.ComponentGraphs
import GrammarReach.Proofs.Bracket.ParityGrammar
import GrammarReach.Proofs.Saturation.SupportedAnswers

/-!
# What a refining side answers

A side finds only walks of the family that it balances, and every balanced walk together
with its edges, if its grammar is made within a machine word.  Both facts speak about the
labelled edges of the solved graph alone, so they also hold for a remembered result, as
long as graphs with different edges have different hashes.
-/

namespace GrammarReach

/-- The answers are walks of one family, and all balanced walks within a machine word; the
edges that support answers are edges of the graph, and all edges of these walks. -/
structure SideResult.Adequate (choice : GrammarChoice) (family : BracketFamily)
    (graph : Graph) (result : SideResult) : Prop where
  complete : choice.WithinWord → ∀ {analysis span path},
    BalancedWalk analysis graph span path → span.isReflexive = false → span ∈ result.spans
  supports : choice.WithinWord → ∀ {analysis span path},
    BalancedWalk analysis graph span path → span.isReflexive = false →
      ∀ targets, span ∈ targets →
        ∀ edge ∈ path, edge ∈ result.provenance.supportingEdges targets
  sound : ∀ span ∈ result.spans, ∃ path, NestedWalk family graph span path
  supported : ∀ targets, ∀ edge ∈ result.provenance.supportingEdges targets,
    edge ∈ graph.labelledEdges

theorem SideResult.Adequate.transfer {choice : GrammarChoice} {family : BracketFamily}
    {graph other : Graph} {result : SideResult} (adequate : result.Adequate choice family graph)
    (forward : ∀ edge ∈ graph.labelledEdges, edge ∈ other.labelledEdges)
    (backward : ∀ edge ∈ other.labelledEdges, edge ∈ graph.labelledEdges) :
    result.Adequate choice family other where
  complete within _ _ _ walk := adequate.complete within
    (walk.within fun edge member => backward edge (walk.inside edge member))
  supports within _ _ _ walk := adequate.supports within
    (walk.within fun edge member => backward edge (walk.inside edge member))
  sound span member := by
    obtain ⟨path, walk⟩ := adequate.sound span member
    exact ⟨path, walk.mono forward⟩
  supported targets edge member := forward edge (adequate.supported targets edge member)

namespace BracketLanguage

/-- Behind an answer of a grammar that matches some families is a canonical walk that is
nested in these families. -/
theorem MatchingGrammar.nestedWalk_of_derives {grammar : Grammar}
    {component : BracketComponent} (proper : component.Proper)
    {families : BracketFamily → Prop}
    (matching : MatchingGrammar grammar component.ids families)
    {span : Span} {used : List Edge}
    (derives : grammar.Derives component.graph Grammar.startName [span] used) :
    ∃ path, CanonicalWalk component.graph span path ∧
      ∀ family, families family → family.WellNested (family.only (wordOf path)) := by
  obtain ⟨path, joins, inside, _, word⟩ := matching.walk_of_derives proper.bounded derives
  refine ⟨withoutEpsilon path, ?_, ?_⟩
  · apply canonicalWalk_withoutEpsilon proper.loops joins inside
    intro label member
    exact (word.covered label member).imp_left fun covers => covers.canonical proper.bounded
  · intro family member
    rw [wordOf_withoutEpsilon, only_filter_ne_epsilon]
    exact (word.matched family member).wellNested_only

end BracketLanguage

/-- A grammar that balances a family within a machine word derives every balanced walk of a
proper component, with all its edges. -/
theorem BracketComponent.Proper.derives_of_walk {component : BracketComponent}
    (proper : component.Proper) {choice : GrammarChoice} (within : choice.WithinWord)
    (family : BracketFamily) {analysis : AnalysisFamily} {span : Span} {path : List Edge}
    (walk : BalancedWalk analysis component.graph span path)
    (irreflexive : span.isReflexive = false) :
    ∃ used, (choice.balancing family component.ids).Derives component.graph
      Grammar.startName [span] used ∧ ∀ edge ∈ path, edge ∈ used :=
  choice.derives_balancing family within proper.bounded proper.built walk.joins
    (fun _ member => walk.mem_edges member)
    (walk.start_mem proper.built (walk.ne_nil irreflexive)) (proper.covered walk) walk.matched

namespace RefiningSide

/-- The family that a side balances. -/
def family (side : RefiningSide) (alphaFamily : BracketFamily) : BracketFamily :=
  match side with
  | .alpha => alphaFamily
  | .beta => alphaFamily.other

theorem grammar_eq (side : RefiningSide) (choice : GrammarChoice) (ids : BracketIds) :
    side.grammar choice ids = choice.balancing (side.family choice.alphaFamily) ids := by
  cases side <;> rfl

theorem adequate_solve (side : RefiningSide) (choice : GrammarChoice)
    {component : BracketComponent} (proper : component.Proper) :
    (side.solve choice component).Adequate choice (side.family choice.alphaFamily)
      component.graph := by
  have matching :=
    choice.matching_balancing (side.family choice.alphaFamily) component.ids
  have derived := fun within => @BracketComponent.Proper.derives_of_walk component proper
    choice within (side.family choice.alphaFamily)
  unfold solve
  rw [grammar_eq]
  generalize choice.balancing (side.family choice.alphaFamily) component.ids = grammar
    at matching derived ⊢
  have arities := matching.shape.hasArities
  obtain ⟨provenance, known⟩ := exists_provenance_solve (arities.solveEnds proper.built {})
  have answers : ∀ span, span ∈ (GrammarReach.solve component.graph grammar {}).spans ↔
      ∃ used, grammar.Derives component.graph Grammar.startName [span] used :=
    fun span => mem_spans_solve proper.built arities
  simp only [known, Option.getD_some]
  generalize (GrammarReach.solve component.graph grammar {}).spans = spans at answers ⊢
  constructor
  · intro within analysis span path walk irreflexive
    obtain ⟨used, derives, _⟩ := derived within walk irreflexive
    exact (answers span).mpr ⟨used, derives⟩
  · intro within analysis span path walk irreflexive targets target edge member
    obtain ⟨used, derives, covers⟩ := derived within walk irreflexive
    have labelled := (Graph.mem_labelledEdges.mp (walk.inside edge member)).2
    exact mem_supportingEdges_solve proper.built arities known derives irreflexive
      ((answers span).mpr ⟨used, derives⟩) target (covers edge member) labelled
  · intro span member
    obtain ⟨used, derives⟩ := (answers span).mp member
    obtain ⟨path, walk, nested⟩ := matching.nestedWalk_of_derives proper derives
    exact ⟨path, walk, nested _ rfl⟩
  · intro targets edge member
    exact mem_labelledEdges_of_supportingEdges proper.built arities known member

end RefiningSide

/-! ## Sessions -/

/-- Graphs with the same hash have the same labelled edges. -/
def CollisionFree (graphs : List Graph) : Prop :=
  ∀ graph ∈ graphs, ∀ other ∈ graphs, graph.contentHash = other.contentHash →
    ∀ edge ∈ graph.labelledEdges, edge ∈ other.labelledEdges

instance (graphs : List Graph) : Decidable (CollisionFree graphs) :=
  inferInstanceAs (Decidable (∀ graph ∈ graphs, ∀ other ∈ graphs,
    graph.contentHash = other.contentHash →
      ∀ edge ∈ graph.labelledEdges, edge ∈ other.labelledEdges))

theorem CollisionFree.mono {graphs more : List Graph} (free : CollisionFree more)
    (sub : ∀ graph ∈ graphs, graph ∈ more) : CollisionFree graphs :=
  fun graph member other otherMember =>
    free graph (sub graph member) other (sub other otherMember)

namespace Session

/-- Every remembered result belongs to a graph that was asked for. -/
def Valid (session : Session) : Prop :=
  ∀ side key result, (session.memo side)[key]? = some result →
    ∃ graph ∈ session.asked, graph.contentHash = key ∧
      result.Adequate session.grammars (side.family session.settings.alphaFamily) graph

/-- One session comes later than another: it has the same settings, has asked for
more, and is as valid. -/
structure Before (earlier later : Session) : Prop where
  settings : later.settings = earlier.settings
  asked : ∀ graph ∈ earlier.asked, graph ∈ later.asked
  valid : earlier.Valid → later.Valid

/-- One session comes later than another in the same mode. -/
structure Precedes (earlier later : Session) : Prop extends earlier.Before later where
  mode : later.mode = earlier.mode

theorem Before.trans {first second third : Session} (before : first.Before second)
    (behind : second.Before third) : first.Before third :=
  ⟨behind.settings.trans before.settings,
    fun graph member => behind.asked graph (before.asked graph member),
    fun valid => behind.valid (before.valid valid)⟩

theorem Precedes.refl (session : Session) : session.Precedes session :=
  ⟨⟨rfl, fun _ member => member, id⟩, rfl⟩

theorem Precedes.trans {first second third : Session} (before : first.Precedes second)
    (behind : second.Precedes third) : first.Precedes third :=
  ⟨before.toBefore.trans behind.toBefore, behind.mode.trans before.mode⟩

theorem Precedes.grammars {earlier later : Session} (precedes : earlier.Precedes later) :
    later.grammars = earlier.grammars := by
  rw [Session.grammars, Session.grammars, precedes.settings, precedes.mode]

theorem valid_ofSettings (settings : Settings) : (ofSettings settings).Valid := by
  intro side key result found
  cases side <;> simp [memo, ofSettings] at found

theorem precedes_clearMemo (session : Session) : session.Precedes session.clearMemo := by
  refine ⟨⟨rfl, fun _ member => member, fun _ side key result found => ?_⟩, rfl⟩
  cases side <;> simp [memo, clearMemo] at found

theorem before_setMode (session : Session) (mode : GrammarMode) :
    session.Before (session.setMode mode) := by
  unfold setMode
  split
  · exact (Precedes.refl session).toBefore
  · refine ⟨rfl, fun _ member => member, fun _ side key result found => ?_⟩
    cases side <;> simp [memo, clearMemo] at found

theorem mode_setMode (session : Session) (mode : GrammarMode) :
    (session.setMode mode).mode = mode := by
  unfold setMode
  split
  · rename_i same
    exact same.symm
  · rfl

private theorem getElem?_memo_remember (session : Session) (side other : RefiningSide)
    (key known : UInt64) (result : SideResult) :
    ((session.remember side key result).memo other)[known]? =
      if side = other ∧ key = known then some result else (session.memo other)[known]? := by
  cases side <;> cases other <;>
    simp [remember, memo, Std.TreeMap.getElem?_insert]

private theorem settings_remember (session : Session) (side : RefiningSide) (key : UInt64)
    (result : SideResult) : (session.remember side key result).settings = session.settings := by
  cases side <;> rfl

private theorem asked_remember (session : Session) (side : RefiningSide) (key : UInt64)
    (result : SideResult) : (session.remember side key result).asked = session.asked := by
  cases side <;> rfl

/-- A session remembers what it answers for a graph, or had remembered it. -/
theorem memo_solve (session : Session) (side : RefiningSide)
    (component : BracketComponent) :
    ((session.memo side)[component.graph.contentHash]? =
        some (session.solve side component).1 ∧
      ∀ (other : RefiningSide) (key : UInt64), ((session.solve side component).2.memo other)[key]? =
        (session.memo other)[key]?) ∨
    ((session.solve side component).1 = side.solve session.grammars component ∧
      ∀ (other : RefiningSide) (key : UInt64),
        ((session.solve side component).2.memo other)[key]? =
        if side = other ∧ component.graph.contentHash = key then
          some (side.solve session.grammars component)
        else (session.memo other)[key]?) := by
  unfold solve
  simp only
  cases found : (session.memo side)[component.graph.contentHash]? with
  | some result =>
      refine Or.inl ⟨rfl, fun other key => ?_⟩
      cases other <;> rfl
  | none =>
      refine Or.inr ⟨rfl, fun other key => ?_⟩
      rw [getElem?_memo_remember]
      cases other <;> rfl

/-- What a session remembers behind a call it remembered before, or has computed in the call. -/
theorem remembered_of_solve {session : Session} {side other : RefiningSide}
    {component : BracketComponent} {key : UInt64} {result : SideResult}
    (found : ((session.solve side component).2.memo other)[key]? = some result) :
    (session.memo other)[key]? = some result ∨
      side = other ∧ component.graph.contentHash = key ∧
        side.solve session.grammars component = result := by
  rcases memo_solve session side component with ⟨_, kept⟩ | ⟨_, changed⟩
  · exact .inl (kept other key ▸ found)
  · rw [changed] at found
    split at found
    · rename_i same
      exact .inr ⟨same.1, same.2, Option.some.inj found⟩
    · exact .inl found

theorem settings_solve (session : Session) (side : RefiningSide)
    (component : BracketComponent) :
    (session.solve side component).2.settings = session.settings := by
  unfold solve
  simp only
  split
  · rfl
  · rw [settings_remember]

theorem mode_solve (session : Session) (side : RefiningSide) (component : BracketComponent) :
    (session.solve side component).2.mode = session.mode := by
  unfold solve
  simp only
  split
  · rfl
  · cases side <;> rfl

theorem grammars_solve (session : Session) (side : RefiningSide)
    (component : BracketComponent) :
    (session.solve side component).2.grammars = session.grammars := by
  rw [grammars, grammars, settings_solve, mode_solve]

theorem asked_solve (session : Session) (side : RefiningSide)
    (component : BracketComponent) :
    (session.solve side component).2.asked = component.graph :: session.asked := by
  unfold solve
  simp only
  split
  · rfl
  · rw [asked_remember]

/-- Asking for a result of a proper component leads to a later session. -/
theorem precedes_solve (session : Session) (side : RefiningSide)
    {component : BracketComponent} (proper : component.Proper) :
    session.Precedes (session.solve side component).2 := by
  refine ⟨⟨settings_solve session side component, ?_, ?_⟩, mode_solve session side component⟩
  · intro graph member
    rw [asked_solve]
    exact .tail _ member
  · intro valid other key result found
    rw [settings_solve, grammars_solve, asked_solve]
    rcases remembered_of_solve found with known | ⟨rfl, rfl, rfl⟩
    · obtain ⟨graph, member, hash, adequate⟩ := valid other key result known
      exact ⟨graph, .tail _ member, hash, adequate⟩
    · exact ⟨component.graph, .head _, rfl, side.adequate_solve session.grammars proper⟩

theorem adequate_of_solve {session : Session} (valid : session.Valid) (side : RefiningSide)
    {component : BracketComponent} (proper : component.Proper)
    (free : CollisionFree (session.solve side component).2.asked) :
    (session.solve side component).1.Adequate session.grammars
      (side.family session.settings.alphaFamily) component.graph := by
  rcases memo_solve session side component with ⟨remembered, _⟩ | ⟨computed, _⟩
  · obtain ⟨graph, member, hash, adequate⟩ := valid side _ _ remembered
    rw [asked_solve] at free
    exact adequate.transfer
      (free graph (.tail _ member) component.graph (.head _) hash)
      (free component.graph (.head _) graph (.tail _ member) hash.symm)
  · rw [computed]
    exact side.adequate_solve session.grammars proper

end Session

end GrammarReach
