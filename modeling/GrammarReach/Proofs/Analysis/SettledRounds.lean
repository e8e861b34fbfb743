import GrammarReach.Proofs.Analysis.SustainedEdges

/-!
# Settled rounds

A round that leaves as many edges as it met has kept all of them, so they sustain each
other.  An answer of refinement comes from such a round or from one that leaves no edge.
-/

namespace GrammarReach

/-- The edges of a piece sustain each other by what its component accepts, and the span is
answered along them; with a target they hang together. -/
structure Settles (choice : GrammarChoice) (analysis : AnalysisFamily) (target : Option Span)
    (piece : Graph) (span : Span) : Prop where
  sustained : Sustained analysis (choice.acceptance piece.matchedBrackets.ids)
    piece.matchedBrackets.graph.edgeSet
  answered : Answered analysis (choice.acceptance piece.matchedBrackets.ids)
    piece.matchedBrackets.graph.edgeSet span
  connected : target.isSome = true →
    ConnectedAt piece.matchedBrackets.graph.edgeSet span.start

namespace ExactRound

variable {choice : GrammarChoice} {target : Option Span} {piece : Graph}
  {analysis : AnalysisFamily}

private theorem nodup_left (round : ExactRound choice target piece) :
    (round.left analysis).labelledEdges.Nodup := by
  have support : round.support.labelledEdges.Nodup :=
    Graph.nodup_labelledEdges_ofDistinctEdges _
  have keeping : (analysis.keeping round.support).labelledEdges.Nodup := by
    cases analysis with
    | taint => exact support
    | valueFlow =>
        change round.support.keepFlows.labelledEdges.Nodup
        unfold Graph.keepFlows
        rw [Graph.labelledEdges_ofEdges, List.filter_comm]
        exact support.sublist List.filter_sublist
  unfold left
  rw [Graph.labelledEdges_matchedBrackets]
  exact keeping.sublist List.filter_sublist

theorem subset_left_of_settled (round : ExactRound choice target piece)
    (settled : piece.matchedBrackets.graph.edgeCount ≤ (round.left analysis).edgeCount) :
    piece.matchedBrackets.graph.edgeSet ⊆ (round.left analysis).edgeSet := by
  refine Graph.labelledEdges_subset_of_weight_le round.nodup_left (round.left_subset analysis) ?_ ?_
  · intro vertex member
    obtain ⟨edge, inLeft, role⟩ := Graph.mem_vertices_matchedBrackets member
    have inPiece := (Graph.mem_labelledEdges.mp (round.left_subset analysis inLeft)).1
    have closed := piece.proper_matchedBrackets.built.closed
    rcases role with rfl | rfl
    · exact closed.source_mem edge inPiece
    · exact closed.target_mem edge inPiece
  · rw [← Graph.edgeCount_matchedBrackets]
    unfold left at settled ⊢
    rwa [← Graph.edgeCount_matchedBrackets]

section Settled

variable (round : ExactRound choice target piece)
  (settled : piece.matchedBrackets.graph.edgeCount ≤ (round.left analysis).edgeCount)

include settled

private theorem subset_support_of_settled :
    piece.matchedBrackets.graph.edgeSet ⊆ round.support.edgeSet :=
  (round.subset_left_of_settled settled).trans (round.left_subset_support analysis)

private theorem subset_middle_of_settled :
    piece.matchedBrackets.graph.edgeSet ⊆ round.middle.matchedBrackets.graph.edgeSet :=
  (round.subset_support_of_settled settled).trans round.support_subset

private theorem acceptedWalk_of_settled {span : Span} {path : List Edge}
    (walk : AcceptedWalk choice choice.alphaFamily.other round.middle.matchedBrackets span path) :
    AcceptedWalk choice choice.alphaFamily.other piece.matchedBrackets span path := by
  refine walk.transfer round.middle.exact_matchedBrackets piece.exact_matchedBrackets ?_
  intro edge
  constructor
  · intro member
    exact round.middle_subset (Graph.matchedBrackets_subset _ member)
  · intro member
    exact round.subset_middle_of_settled settled member

theorem sustained_of_settled :
    Sustained analysis (choice.acceptance piece.matchedBrackets.ids)
      piece.matchedBrackets.graph.edgeSet where
  canonical edge member := by
    have inMiddle := Graph.matchedBrackets_subset _
      (round.subset_middle_of_settled settled member)
    obtain ⟨span, path, _, _, walk, onPath⟩ := round.mem_middle.mp inMiddle
    exact walk.canonical _ (List.mem_map.mpr ⟨edge, onPath, rfl⟩)
  supported family edge member := by
    rcases choice.alphaFamily.eq_or_eq_other family with rfl | rfl
    · have inMiddle := Graph.matchedBrackets_subset _
        (round.subset_middle_of_settled settled member)
      obtain ⟨span, path, irreflexive, _, walk, onPath⟩ := round.mem_middle.mp inMiddle
      exact ⟨span, path, irreflexive, walk.within piece.exact_matchedBrackets, onPath⟩
    · obtain ⟨span, path, irreflexive, _, walk, onPath⟩ :=
        round.mem_support.mp (round.subset_support_of_settled settled member)
      exact ⟨span, path, irreflexive,
        (round.acceptedWalk_of_settled settled walk).within piece.exact_matchedBrackets, onPath⟩
  flows := by
    rintro rfl edge member
    have kept : edge ∈ round.support.keepFlows.edgeSet :=
      Graph.matchedBrackets_subset _ (round.subset_left_of_settled settled member)
    obtain ⟨_, source, target⟩ :=
      (Graph.mem_keepFlows round.built_support round.loopsOnly_support).mp kept
    have sub : round.support.edgeSet ⊆ piece.matchedBrackets.graph.edgeSet :=
      round.support_subset.trans ((Graph.matchedBrackets_subset _).trans round.middle_subset)
    exact ⟨source.mono sub, target.mono sub⟩

/-- What a settled round answers is answered along the edges of its piece. -/
theorem settles {spans : List Span} (ended : round.finish analysis = .converged spans)
    {span : Span} (member : span ∈ spans) : Settles choice analysis target piece span := by
  obtain ⟨inAlpha, inBeta, irreflexive, fits, wrapped⟩ :=
    ((of_converged ended).2 span).mp member
  refine ⟨round.sustained_of_settled settled, ⟨irreflexive, fun family => ?_, fun flow => ?_⟩,
    fun isSome edge inPiece => ?_⟩
  · rcases choice.alphaFamily.eq_or_eq_other family with rfl | rfl
    · obtain ⟨_, path, walk⟩ :=
        (round.alphaExact.mem_wanted round.alphaChosen irreflexive).mp inAlpha
      exact ⟨path, walk.within piece.exact_matchedBrackets⟩
    · obtain ⟨_, path, walk⟩ :=
        (round.betaExact.mem_wanted round.betaChosen irreflexive).mp inBeta
      exact ⟨path,
        (round.acceptedWalk_of_settled settled walk).within piece.exact_matchedBrackets⟩
  · obtain ⟨path, walk⟩ := (Graph.mem_wrappedSpans round.built_support
      round.loopsOnly_support).mp (wrapped flow)
    refine ⟨path, walk.joins, fun edge onPath => ?_, walk.wrapped⟩
    exact round.middle_subset (Graph.matchedBrackets_subset _
      (round.support_subset (walk.inside edge onPath)))
  · obtain ⟨asked, rfl⟩ := Option.isSome_iff_exists.mp isSome
    cases fits asked rfl
    have inMiddle := Graph.matchedBrackets_subset _
      (round.subset_middle_of_settled settled inPiece)
    obtain ⟨other, path, _, otherFits, walk, onPath⟩ := round.mem_middle.mp inMiddle
    cases otherFits span rfl
    exact (linked_of_joins walk.joins walk.inside).2 edge onPath

end Settled

end ExactRound

namespace Refinement

/-- A run keeps to parts of what it comes to, and answers by rounds that leave no edge or
are settled. -/
theorem course_settled (settings : Settings) {target : Option Span} (input : Graph)
    (irreflexive : ∀ asked, target = some asked → asked.isReflexive = false) :
    Course target (Session.Serves settings)
      (fun graph => settings.ComesTo target input graph ∧ graph.edgeSet ⊆ input.edgeSet)
      (fun part => part.edgeSet ⊆ input.edgeSet ∧
        ∃ graph, settings.ComesTo target input graph ∧ part ∈ relevantParts target graph)
      (fun span => settings.Exhausted target input span ∨
        ∃ piece : Graph, piece.edgeSet ⊆ input.edgeSet ∧
          Settles (settings.grammars settings.mode) settings.family target piece span) where
  session := fun serves run => run.serves serves
  relevant := fun ⟨comes, sub⟩ part member =>
    ⟨fun _ inPart => sub (sub_relevantParts member _ inPart), _, comes, member⟩
  round := by
    rintro session piece outcome serves ⟨sub, graph, comes, relevant⟩ run free
    rcases run.exact_or_misses serves free with ⟨missed, _⟩ | ⟨round, ended⟩
    · rw [missed]
      trivial
    · obtain ⟨fresh, alpha, beta, sameLeft, agrees⟩ :=
        round.exists_fresh irreflexive settings.family
      obtain ⟨freshRun, leftOver⟩ := Session.refinePiece_ofSettings settings fresh alpha beta
      rw [ended]
      cases finished : round.finish settings.family with
      | unreachable => trivial
      | shrunk next =>
          rw [finished] at agrees
          rw [agrees.eq_shrunk] at freshRun
          refine ⟨.next comes relevant freshRun, ?_⟩
          rw [ExactRound.of_shrunk finished]
          exact (round.left_subset settings.family).trans
            ((Graph.matchedBrackets_subset piece).trans sub)
      | converged spans =>
          intro span member
          rcases (ExactRound.of_converged finished).1 with empty | settled
          · left
            rw [finished] at agrees
            obtain ⟨others, freshEnd, same⟩ := agrees.exists_converged
            rw [freshEnd] at freshRun
            rw [sameLeft] at leftOver
            exact ⟨graph, piece, others, _, comes, relevant, freshRun, (same span).mp member,
              leftOver, empty⟩
          · exact Or.inr ⟨piece, sub, round.settles settled finished member⟩

end Refinement

namespace Session

/-- An answer of a fresh session comes from a round that leaves no edge, or its piece
settles. -/
theorem exhausted_or_settles {settings : Settings} {target : Option Span} {input : Graph}
    (irreflexive : ∀ asked, target = some asked → asked.isReflexive = false)
    (free : CollisionFree ((ofSettings settings).mutualRefinement input target).2.asked)
    {span : Span} (member : span ∈ ((ofSettings settings).mutualRefinement input target).1) :
    settings.Exhausted target input span ∨ ∃ piece : Graph, piece.edgeSet ⊆ input.edgeSet ∧
      Settles (settings.grammars settings.mode) settings.family target piece span :=
  (Refinement.course_settled settings input irreflexive).answer_of_mem
    (serves_ofSettings settings) ⟨.input, subset_rfl⟩ free member

end Session

end GrammarReach
