import GrammarReach.Analysis.Refinement
import GrammarReach.Proofs.Analysis.Sides
import GrammarReach.Proofs.Analysis.ValueFlow
import GrammarReach.Proofs.Graph.Sizes

/-!
# One round of refinement

A round on a piece answers every balanced walk or keeps all of its edges.  What it
answers is joined by a walk of each classic language, and what it leaves over is a
lighter part of the piece.
-/

namespace GrammarReach

/-- The span is the target, if there is one. -/
def Fits (target : Option Span) (span : Span) : Prop :=
  ∀ wanted, target = some wanted → span = wanted

theorem fits_none (span : Span) : Fits none span :=
  fun _ asked => by cases asked

/-- What is certain of an answer: its ends differ, it is the target, if there is one,
and walks of both classic languages join its ends; for a value flow also a wrapped
walk. -/
structure Confirmed (settings : Settings) (target : Option Span) (graph : Graph)
    (span : Span) : Prop where
  irreflexive : span.isReflexive = false
  fits : Fits target span
  alpha : ∃ path, NestedWalk settings.alphaFamily graph span path
  beta : ∃ path, NestedWalk settings.alphaFamily.other graph span path
  wrapped : settings.family = .valueFlow → ∃ path, WrappedWalk graph span path

theorem Confirmed.mono {settings : Settings} {target : Option Span} {graph other : Graph}
    {span : Span} (confirmed : Confirmed settings target graph span)
    (sub : ∀ edge ∈ graph.labelledEdges, edge ∈ other.labelledEdges) :
    Confirmed settings target other span where
  irreflexive := confirmed.irreflexive
  fits := confirmed.fits
  alpha := confirmed.alpha.imp fun _ walk => walk.mono sub
  beta := confirmed.beta.imp fun _ walk => walk.mono sub
  wrapped flow := (confirmed.wrapped flow).imp fun _ walk => walk.mono sub

namespace Round

/-- The round answers the span or leaves over a graph that has the property. -/
def Keeps (span : Span) (holds : Graph → Prop) : Round → Prop
  | .converged spans => span ∈ spans
  | .shrunk next => holds next
  | .unreachable => False

/-- The round answers such spans only, or leaves over such a graph. -/
def Yields (left : Graph → Prop) (answer : Span → Prop) : Round → Prop
  | .converged spans => ∀ span ∈ spans, answer span
  | .shrunk next => left next
  | .unreachable => True

theorem Yields.imp {left more : Graph → Prop} {answer other : Span → Prop} {round : Round}
    (yields : round.Yields left answer) (weaker : ∀ graph, left graph → more graph)
    (looser : ∀ span, answer span → other span) : round.Yields more other := by
  cases round with
  | converged spans => exact fun span member => looser span (yields span member)
  | shrunk next => exact weaker next yields
  | unreachable => trivial

/-- The round answers confirmed spans only, or leaves over a part of the graph. -/
abbrev Sound (settings : Settings) (target : Option Span) (graph : Graph) : Round → Prop :=
  Yields (fun next => ∀ edge ∈ next.labelledEdges, edge ∈ graph.labelledEdges)
    (Confirmed settings target graph)

/-- The round leaves over a built graph that has less than the given number of edges,
and finds a target unreachable only when there is one. -/
def Proper (target : Option Span) (bound : Nat) : Round → Prop
  | .converged _ => True
  | .shrunk next => next.Built ∧ next.edgeCount < bound
  | .unreachable => target.isSome = true

/-! ## Targets -/

section Target

variable {target : Option Span} {span : Span} {answers : List Span}

theorem exists_wanted (fits : Fits target span) (member : span ∈ answers) :
    ∃ spans, wanted target answers = some spans ∧ span ∈ spans := by
  cases target with
  | none => exact ⟨answers, rfl, member⟩
  | some asked =>
      cases fits asked rfl
      refine ⟨[span], ?_, List.mem_singleton.mpr rfl⟩
      simp [wanted, member]

theorem mem_of_wanted {spans : List Span} (chosen : wanted target answers = some spans)
    (member : span ∈ spans) : span ∈ answers := by
  cases target with
  | none =>
      cases chosen
      exact member
  | some asked =>
      simp only [wanted] at chosen
      split at chosen
      · rename_i known
        cases chosen
        rw [List.mem_singleton] at member
        simpa [member] using known
      · cases chosen

theorem isSome_of_wanted (rejected : wanted target answers = none) : target.isSome = true := by
  cases target with
  | none => cases rejected
  | some _ => rfl

theorem mem_commonSpans {alphaSpans betaSpans : List Span} :
    span ∈ commonSpans target alphaSpans betaSpans ↔
      span ∈ alphaSpans ∧ span ∈ betaSpans ∧ span.isReflexive = false ∧ Fits target span := by
  unfold commonSpans
  rw [List.mem_filter]
  cases target with
  | none => simp [Fits, Std.TreeSet.contains_ofList, and_comm]
  | some asked =>
      simp only [Bool.and_eq_true, Bool.not_eq_true', Std.TreeSet.contains_ofList,
        List.contains_iff_mem, beq_iff_eq, Fits, Option.some.injEq, forall_eq', and_assoc]
      exact and_congr_right fun _ => and_left_comm

end Target

/-! ## Ending a round -/

section Ending

variable {settings : Settings} {target : Option Span} {graph left : Graph} {span : Span}
  {alphaSpans betaSpans : List Span} {oldEdges : Nat}

theorem close_cases (target : Option Span) (oldEdges : Nat)
    (alphaSpans betaSpans : List Span) (left : Graph) :
    close target oldEdges alphaSpans betaSpans left =
        .converged (commonSpans target alphaSpans betaSpans) ∨
      (close target oldEdges alphaSpans betaSpans left = .shrunk left.matchedBrackets.graph ∧
        left.matchedBrackets.graph.edgeCount < oldEdges) := by
  unfold close
  by_cases settled : left.matchedBrackets.graph.edgeCount = 0 ∨
      oldEdges ≤ left.matchedBrackets.graph.edgeCount
  · exact Or.inl (if_pos settled)
  · exact Or.inr ⟨if_neg settled, Nat.lt_of_not_le (not_or.mp settled).2⟩

theorem proper_close :
    (close target oldEdges alphaSpans betaSpans left).Proper target oldEdges := by
  rcases close_cases target oldEdges alphaSpans betaSpans left with ended | ⟨ended, fewer⟩
  · rw [ended]
    trivial
  · rw [ended]
    exact ⟨left.proper_matchedBrackets.built, fewer⟩

theorem keeps_close {analysis : AnalysisFamily} {path : List Edge}
    (walk : BalancedWalk analysis left span path) (fits : Fits target span)
    (irreflexive : span.isReflexive = false) (alpha : span ∈ alphaSpans)
    (beta : span ∈ betaSpans) :
    (close target oldEdges alphaSpans betaSpans left).Keeps span
      fun next => ∀ edge ∈ path, edge ∈ next.labelledEdges := by
  rcases close_cases target oldEdges alphaSpans betaSpans left with ended | ⟨ended, _⟩
  · rw [ended]
    exact mem_commonSpans.mpr ⟨alpha, beta, irreflexive, fits⟩
  · rw [ended]
    exact walk.matchedBrackets.inside

theorem sound_close
    (confirmed : ∀ span, span ∈ alphaSpans → span ∈ betaSpans → span.isReflexive = false →
      Fits target span → Confirmed settings target graph span)
    (sub : ∀ edge ∈ left.labelledEdges, edge ∈ graph.labelledEdges) :
    (close target oldEdges alphaSpans betaSpans left).Sound settings target graph := by
  rcases close_cases target oldEdges alphaSpans betaSpans left with ended | ⟨ended, _⟩
  · rw [ended]
    intro span member
    obtain ⟨alpha, beta, irreflexive, fits⟩ := mem_commonSpans.mp member
    exact confirmed span alpha beta irreflexive fits
  · rw [ended]
    intro edge member
    exact sub edge (Graph.mem_labelledEdges_matchedBrackets.mp member).1

theorem proper_conclude (family : AnalysisFamily) :
    (conclude family target oldEdges alphaSpans betaSpans left).Proper target oldEdges := by
  unfold conclude
  cases family with
  | taint => exact proper_close
  | valueFlow =>
      simp only
      split
      · rename_i refuted
        exact (Bool.and_eq_true_iff.mp refuted).1
      · exact proper_close

theorem keeps_conclude {family : AnalysisFamily} {path : List Edge} (built : left.Built)
    (loops : left.LoopsOnly) (walk : BalancedWalk family left span path)
    (fits : Fits target span) (irreflexive : span.isReflexive = false)
    (alpha : span ∈ alphaSpans) (beta : span ∈ betaSpans) :
    (conclude family target oldEdges alphaSpans betaSpans left).Keeps span
      fun next => ∀ edge ∈ path, edge ∈ next.labelledEdges := by
  unfold conclude
  cases family with
  | taint => exact keeps_close walk fits irreflexive alpha beta
  | valueFlow =>
      have flow : WrappedWalk left span path := ⟨walk.toCanonicalWalk, walk.wrapped⟩
      have wrapped : span ∈ left.filterWrapped betaSpans :=
        Graph.mem_filterWrapped.mpr
          ⟨beta, (Graph.mem_wrappedSpans built loops).mpr ⟨path, flow⟩⟩
      have some : (left.filterWrapped betaSpans).isEmpty = false := by
        rw [List.isEmpty_eq_false_iff]
        exact List.ne_nil_of_mem wrapped
      simp only [some, Bool.and_false, Bool.false_eq_true, if_false]
      exact keeps_close (walk.within (Graph.mem_keepFlows_of_wrapped built flow)) fits
        irreflexive alpha wrapped

theorem sound_conclude (built : left.Built) (loops : left.LoopsOnly)
    (sub : ∀ edge ∈ left.labelledEdges, edge ∈ graph.labelledEdges)
    (alpha : ∀ span ∈ alphaSpans, ∃ path, NestedWalk settings.alphaFamily graph span path)
    (beta : ∀ span ∈ betaSpans, ∃ path, NestedWalk settings.alphaFamily.other graph span path) :
    (conclude settings.family target oldEdges alphaSpans betaSpans left).Sound settings target
      graph := by
  unfold conclude
  cases family : settings.family with
  | taint =>
      refine sound_close (fun span inAlpha inBeta irreflexive fits => ?_) sub
      refine ⟨irreflexive, fits, alpha span inAlpha, beta span inBeta, fun flow => ?_⟩
      rw [family] at flow
      cases flow
  | valueFlow =>
      simp only
      split
      · trivial
      · refine sound_close (fun span inAlpha inWrapped irreflexive fits => ?_)
          fun edge member => sub edge (Graph.labelledEdges_of_keepFlows member)
        obtain ⟨inBeta, wrapped⟩ := Graph.mem_filterWrapped.mp inWrapped
        refine ⟨irreflexive, fits, alpha span inAlpha, beta span inBeta, fun _ => ?_⟩
        obtain ⟨path, walk⟩ := (Graph.mem_wrappedSpans built loops).mp wrapped
        exact ⟨path, walk.mono sub⟩

end Ending

/-! ## What supports answers -/

section Support

variable {choice : GrammarChoice} {family : BracketFamily} {graph : Graph}
  {result : SideResult} {spans : List Span}

theorem built_supportGraph : (supportGraph result spans).Built :=
  Graph.built_ofDistinctEdges _

theorem mem_supportGraph {edge : Edge} :
    edge ∈ (supportGraph result spans).labelledEdges ↔
      edge ∈ result.provenance.supportingEdges spans := by
  unfold supportGraph
  rw [Graph.mem_labelledEdges_ofDistinctEdges, Std.TreeSet.mem_toList]
  constructor
  · exact And.left
  · exact fun member => ⟨member, (Provenance.recorded_of_mem_supportingEdges member).2⟩

theorem loopsOnly_supportGraph : (supportGraph result spans).LoopsOnly := by
  intro other member epsilon
  obtain ⟨edge, listed, rfl | rfl | rfl⟩ := Graph.mem_ofDistinctEdges.mp member
  · rw [Std.TreeSet.mem_toList] at listed
    rw [(Provenance.recorded_of_mem_supportingEdges listed).2] at epsilon
    cases epsilon
  · rfl
  · rfl

theorem walk_supportGraph (adequate : result.Adequate choice family graph)
    (within : choice.WithinWord)
    {analysis : AnalysisFamily} {span : Span} {path : List Edge}
    (walk : BalancedWalk analysis graph span path) (irreflexive : span.isReflexive = false)
    (member : span ∈ spans) : BalancedWalk analysis (supportGraph result spans) span path :=
  walk.within fun edge onPath =>
    mem_supportGraph.mpr (adequate.supports within walk irreflexive spans member edge onPath)

theorem labelledEdges_of_supportGraph (adequate : result.Adequate choice family graph) {edge : Edge}
    (member : edge ∈ (supportGraph result spans).labelledEdges) : edge ∈ graph.labelledEdges :=
  adequate.supported spans edge (mem_supportGraph.mp member)

end Support

end Round

/-! ## A round as a whole -/

namespace Session

open Round

/-- What a round on a piece can do: the alpha side or the beta side does not answer
the target, or both sides answer and the round is concluded. -/
inductive PieceRun (session : Session) (target : Option Span) (piece : Graph) :
    Round × Session → Prop where
  | alphaMisses {alpha : SideResult} {middle : Session} :
      session.solve .alpha piece.matchedBrackets = (alpha, middle) →
      wanted target alpha.spans = none →
      PieceRun session target piece (.unreachable, middle)
  | betaMisses {alpha beta : SideResult} {middle later : Session} {alphaSpans : List Span} :
      session.solve .alpha piece.matchedBrackets = (alpha, middle) →
      wanted target alpha.spans = some alphaSpans →
      middle.solve .beta (supportGraph alpha alphaSpans).matchedBrackets = (beta, later) →
      wanted target beta.spans = none →
      PieceRun session target piece (.unreachable, later)
  | concluded {alpha beta : SideResult} {middle later : Session}
      {alphaSpans betaSpans : List Span} :
      session.solve .alpha piece.matchedBrackets = (alpha, middle) →
      wanted target alpha.spans = some alphaSpans →
      middle.solve .beta (supportGraph alpha alphaSpans).matchedBrackets = (beta, later) →
      wanted target beta.spans = some betaSpans →
      PieceRun session target piece
        (conclude later.settings.family target piece.matchedBrackets.graph.edgeCount
          alphaSpans betaSpans (supportGraph beta betaSpans), later)

theorem pieceRun_refinePiece (session : Session) (target : Option Span) (piece : Graph) :
    PieceRun session target piece (session.refinePiece target piece) := by
  unfold refinePiece
  cases alphaRun : session.solve .alpha piece.matchedBrackets with
  | mk alpha middle =>
      cases alphaChosen : wanted target alpha.spans with
      | none =>
          simp only [alphaRun, alphaChosen]
          exact .alphaMisses alphaRun alphaChosen
      | some alphaSpans =>
          cases betaRun : middle.solve .beta (supportGraph alpha alphaSpans).matchedBrackets with
          | mk beta later =>
              cases betaChosen : wanted target beta.spans with
              | none =>
                  simp only [alphaRun, alphaChosen, betaRun, betaChosen]
                  exact .betaMisses alphaRun alphaChosen betaRun betaChosen
              | some betaSpans =>
                  simp only [alphaRun, alphaChosen, betaRun, betaChosen]
                  exact .concluded alphaRun alphaChosen betaRun betaChosen

section Piece

variable {session : Session} {target : Option Span} {piece : Graph} {outcome : Round × Session}

private theorem precedes_of_solve {session later : Session} {side : RefiningSide}
    {graph : Graph} {result : SideResult}
    (run : session.solve side graph.matchedBrackets = (result, later)) :
    session.Precedes later := by
  have precedes := session.precedes_solve side graph.proper_matchedBrackets
  rw [run] at precedes
  exact precedes

private theorem adequate_of_run {session later : Session} {side : RefiningSide} {graph : Graph}
    {result : SideResult} (valid : session.Valid)
    (run : session.solve side graph.matchedBrackets = (result, later))
    (free : CollisionFree later.asked) :
    result.Adequate session.grammars (side.family session.settings.alphaFamily)
      graph.matchedBrackets.graph := by
  have adequate := adequate_of_solve valid side graph.proper_matchedBrackets
  rw [run] at adequate
  exact adequate free

/-- A side answers a balanced walk that fits the target, and supports each of its edges. -/
private theorem answered_of_run {session later : Session} {side : RefiningSide} {graph : Graph}
    {result : SideResult} (valid : session.Valid) (within : session.grammars.WithinWord)
    (run : session.solve side graph.matchedBrackets = (result, later))
    (free : CollisionFree later.asked) {analysis : AnalysisFamily} {span : Span}
    {path : List Edge} (walk : BalancedWalk analysis graph span path)
    (irreflexive : span.isReflexive = false) (fits : Fits target span) :
    ∃ spans, wanted target result.spans = some spans ∧ span ∈ spans ∧
      BalancedWalk analysis (supportGraph result spans) span path := by
  have adequate := adequate_of_run valid run free
  have inside := walk.matchedBrackets
  obtain ⟨spans, chosen, member⟩ := exists_wanted fits (adequate.complete within inside irreflexive)
  exact ⟨spans, chosen, member, walk_supportGraph adequate within inside irreflexive member⟩

theorem PieceRun.precedes (run : PieceRun session target piece outcome) :
    session.Precedes outcome.2 := by
  cases run with
  | alphaMisses alphaRun _ => exact precedes_of_solve alphaRun
  | betaMisses alphaRun _ betaRun _ =>
      exact (precedes_of_solve alphaRun).trans (precedes_of_solve betaRun)
  | concluded alphaRun _ betaRun _ =>
      exact (precedes_of_solve alphaRun).trans (precedes_of_solve betaRun)

theorem PieceRun.proper (run : PieceRun session target piece outcome) :
    outcome.1.Proper target piece.matchedBrackets.graph.edgeCount := by
  cases run with
  | alphaMisses _ rejected => exact isSome_of_wanted rejected
  | betaMisses _ _ _ rejected => exact isSome_of_wanted rejected
  | concluded => exact proper_conclude _

/-- A round on a piece with a balanced walk answers it or keeps its edges. -/
theorem PieceRun.keeps (run : PieceRun session target piece outcome) (valid : session.Valid)
    (within : session.grammars.WithinWord) (free : CollisionFree outcome.2.asked) {span : Span}
    {path : List Edge}
    (walk : BalancedWalk session.settings.family piece span path)
    (irreflexive : span.isReflexive = false) (fits : Fits target span) :
    outcome.1.Keeps span fun next => ∀ edge ∈ path, edge ∈ next.labelledEdges := by
  cases run with
  | alphaMisses alphaRun rejected =>
      obtain ⟨_, chosen, _⟩ := answered_of_run valid within alphaRun free walk irreflexive fits
      rw [rejected] at chosen
      cases chosen
  | betaMisses alphaRun alphaChosen betaRun rejected =>
      have before := precedes_of_solve alphaRun
      have behind := precedes_of_solve betaRun
      obtain ⟨_, alphaKnown, _, middleWalk⟩ := answered_of_run valid within alphaRun
        (free.mono behind.asked) walk irreflexive fits
      cases alphaChosen.symm.trans alphaKnown
      obtain ⟨_, chosen, _⟩ := answered_of_run (before.valid valid)
        (before.grammars.symm ▸ within) betaRun free middleWalk irreflexive fits
      rw [rejected] at chosen
      cases chosen
  | concluded alphaRun alphaChosen betaRun betaChosen =>
      have before := precedes_of_solve alphaRun
      have behind := precedes_of_solve betaRun
      obtain ⟨_, alphaKnown, alphaMember, middleWalk⟩ := answered_of_run valid within alphaRun
        (free.mono behind.asked) walk irreflexive fits
      cases alphaChosen.symm.trans alphaKnown
      obtain ⟨_, betaKnown, betaMember, left⟩ := answered_of_run (before.valid valid)
        (before.grammars.symm ▸ within) betaRun free middleWalk irreflexive fits
      cases betaChosen.symm.trans betaKnown
      rw [(before.trans behind).settings]
      exact keeps_conclude built_supportGraph loopsOnly_supportGraph left fits irreflexive
        alphaMember betaMember

/-- A round on a piece answers confirmed spans only and leaves over a part of the
piece. -/
theorem PieceRun.sound (run : PieceRun session target piece outcome) (valid : session.Valid)
    (free : CollisionFree outcome.2.asked) :
    outcome.1.Sound session.settings target piece := by
  cases run with
  | alphaMisses => trivial
  | betaMisses => trivial
  | @concluded alphaResult betaResult middle later alphaSpans betaSpans alphaRun alphaChosen
      betaRun betaChosen =>
      have before := precedes_of_solve alphaRun
      have behind := precedes_of_solve betaRun
      have alpha := adequate_of_run valid alphaRun (free.mono behind.asked)
      have beta := adequate_of_run (before.valid valid) betaRun free
      have alphaSub : ∀ edge ∈ piece.matchedBrackets.graph.labelledEdges,
          edge ∈ piece.labelledEdges :=
        fun edge member => (Graph.mem_labelledEdges_matchedBrackets.mp member).1
      have betaSub : ∀ edge ∈
          (supportGraph alphaResult alphaSpans).matchedBrackets.graph.labelledEdges,
          edge ∈ piece.labelledEdges :=
        fun edge member => alphaSub edge (labelledEdges_of_supportGraph alpha
          (Graph.mem_labelledEdges_matchedBrackets.mp member).1)
      rw [(before.trans behind).settings]
      apply sound_conclude built_supportGraph loopsOnly_supportGraph
      · exact fun edge member => betaSub edge (labelledEdges_of_supportGraph beta member)
      · intro span member
        obtain ⟨path, walk⟩ := alpha.sound span (mem_of_wanted alphaChosen member)
        exact ⟨path, walk.mono alphaSub⟩
      · intro span member
        obtain ⟨path, walk⟩ := beta.sound span (mem_of_wanted betaChosen member)
        rw [before.settings] at walk
        exact ⟨path, walk.mono betaSub⟩

end Piece

end Session

end GrammarReach
