import GrammarReach.Proofs.Analysis.Comparisons
import GrammarReach.Proofs.Analysis.CondensedAnswers

/-!
# The family that alpha balances

Each round solves for the two families one after the other, in the order of the settings.
The rounds of the two orders leave different graphs, but what one order answers from a
settled piece the other order answers too, as long as the classes tell the matched ids
apart.
-/

namespace GrammarReach

theorem GrammarChoice.Accepts.ofMode {choice other : GrammarChoice} {family : BracketFamily}
    {ids : BracketIds} {word : List Label} (accepts : choice.Accepts family ids word)
    (sameMode : other.mode = choice.mode)
    (sameClasses : other.parityClasses = choice.parityClasses) :
    other.Accepts family ids word := by
  refine ⟨accepts.nested, fun augmented => ?_⟩
  rw [classCount, sameClasses]
  exact accepts.cancels (sameMode ▸ augmented)

namespace Session

private theorem mem_of_otherFamily {settings : Settings} {graph : Graph}
    (built : graph.Built) (apart : settings.IdsApart graph.matchedBrackets.ids)
    (fits : (settings.grammars settings.mode).WithinWord)
    (first second : BracketFamily)
    (free : CollisionFree ((ofSettings { settings with alphaFamily := first }).mutualRefinement
      graph none).2.asked)
    (otherFree : CollisionFree ((ofSettings
      { settings with alphaFamily := second }).mutualRefinement graph none).2.asked)
    {span : Span}
    (member : span ∈ ((ofSettings { settings with alphaFamily := first }).mutualRefinement
      graph none).1) :
    span ∈ ((ofSettings { settings with alphaFamily := second }).mutualRefinement
        graph none).1 ∨
      ({ settings with alphaFamily := first } : Settings).Exhausted none graph span := by
  rcases exhausted_or_settles (by simp) free member with exhausted | ⟨piece, within, settles⟩
  · exact Or.inr exhausted
  · left
    refine @Settles.mem_mutualRefinement _ { settings with alphaFamily := second } _ _ _ _ _
      settles within (fun _ _ => id) ?_ built otherFree
    intro other _ _ family word accepted
    have pieceExact := piece.exact_matchedBrackets
    have inside : piece.matchedBrackets.graph.edgeSet ⊆ graph.matchedBrackets.graph.edgeSet :=
      settles.sustained.subset_matchedBrackets (fun _ _ known => known.1.matched)
        ((Graph.matchedBrackets_subset piece).trans within)
    have fewer := (pieceExact.distinct family.other).subperm
      (pieceExact.ids_subset graph.exact_matchedBrackets inside family.other)
    have few := fun augmented => (apart augmented).imp_right fun bound =>
      fewer.length_le.trans (bound family.other)
    have firstFits : (({ settings with alphaFamily := first } : Settings).grammars
        settings.mode).WithinWord := fits
    exact (accepted.1.reclass firstFits accepted.2 pieceExact.bounded few _).ofMode rfl rfl

/-- Both orders answer the same, unless a round that leaves no edge answers, there are more
matched ids than the classes tell apart, or more classes than a machine word counts. -/
theorem mem_parenthesis_or_bracket {settings : Settings} {graph : Graph} (built : graph.Built)
    (apart : settings.IdsApart graph.matchedBrackets.ids)
    (fits : (settings.grammars settings.mode).WithinWord)
    (parenthesisFree : CollisionFree ((ofSettings
      { settings with alphaFamily := .parenthesis }).mutualRefinement graph none).2.asked)
    (bracketFree : CollisionFree ((ofSettings
      { settings with alphaFamily := .bracket }).mutualRefinement graph none).2.asked)
    (span : Span) :
    (span ∈ ((ofSettings { settings with alphaFamily := .parenthesis }).mutualRefinement
        graph none).1 →
      span ∈ ((ofSettings { settings with alphaFamily := .bracket }).mutualRefinement
          graph none).1 ∨
        ({ settings with alphaFamily := .parenthesis } : Settings).Exhausted none graph span) ∧
    (span ∈ ((ofSettings { settings with alphaFamily := .bracket }).mutualRefinement
        graph none).1 →
      span ∈ ((ofSettings { settings with alphaFamily := .parenthesis }).mutualRefinement
          graph none).1 ∨
        ({ settings with alphaFamily := .bracket } : Settings).Exhausted none graph span) :=
  ⟨mem_of_otherFamily built apart fits _ _ parenthesisFree bracketFree,
    mem_of_otherFamily built apart fits _ _ bracketFree parenthesisFree⟩

/-- The crossing walk is answered whichever family alpha balances. -/
theorem mem_parenthesis_or_bracket_crossing :
    (⟨0, 4⟩ ∈ ((ofSettings {}).mutualRefinement (.ofEdges crossingPath) none).1 ∨
      ({ alphaFamily := .bracket } : Settings).Exhausted none (.ofEdges crossingPath) ⟨0, 4⟩) ∧
    (⟨0, 4⟩ ∈ ((ofSettings { alphaFamily := .bracket }).mutualRefinement
        (.ofEdges crossingPath) none).1 ∨
      ({} : Settings).Exhausted none (.ofEdges crossingPath) ⟨0, 4⟩) := by
  have built := Graph.built_ofEdges crossingPath
  have free := collisionFree_crossingPath
  have answered : ∀ alpha : BracketFamily, ⟨0, 4⟩ ∈ ((ofSettings
      { alphaFamily := alpha }).mutualRefinement (.ofEdges crossingPath) none).1 := fun alpha =>
    mem_mutualRefinement (valid_ofSettings { alphaFamily := alpha })
      (fun augmented => nomatch augmented) built (free alpha) balancedWalk_crossingPath (by decide)
      (fits_none _)
  have agree := @mem_parenthesis_or_bracket {} (.ofEdges crossingPath) built
    (fun augmented => by cases augmented) (fun _ => by decide) (free .parenthesis)
    (free .bracket) ⟨0, 4⟩
  exact ⟨agree.2 (answered .bracket), agree.1 (answered .parenthesis)⟩

/-- Two edges lead from `1` to `2`: one closes the bracket of a loop in front, the other one
opens a parenthesis. -/
def sharedEnd : List Edge :=
  [⟨0, 0, "ob--0"⟩, ⟨0, 1, "cp--0"⟩, ⟨1, 2, "cb--0"⟩, ⟨1, 2, "op--0"⟩]

/-- When alpha balances the brackets, the opening parenthesis is a walk for it and the closing
bracket one for beta, and a round that leaves no edge answers.  When alpha balances the
parentheses, it leaves the closing bracket without a partner and nothing for beta. -/
theorem not_bracket_subset_parenthesis :
    ¬ ∀ (settings : Settings) (graph : Graph), settings.IsValid → graph.Built →
      CollisionFree ((ofSettings
        { settings with alphaFamily := .parenthesis }).mutualRefinement graph none).2.asked →
      CollisionFree ((ofSettings
        { settings with alphaFamily := .bracket }).mutualRefinement graph none).2.asked →
      ∀ span, span ∈ ((ofSettings
          { settings with alphaFamily := .parenthesis }).mutualRefinement graph none).1 ↔
        span ∈ ((ofSettings
          { settings with alphaFamily := .bracket }).mutualRefinement graph none).1 := by
  intro same
  have parenthesis :
      ⟨1, 2⟩ ∉ ((ofSettings {}).mutualRefinement (.ofEdges sharedEnd) none).1 ∧
      CollisionFree ((ofSettings {}).mutualRefinement (.ofEdges sharedEnd) none).2.asked := by
    decide +kernel
  have bracket :
      ⟨1, 2⟩ ∈ ((ofSettings { alphaFamily := .bracket }).mutualRefinement
        (.ofEdges sharedEnd) none).1 ∧
      CollisionFree ((ofSettings { alphaFamily := .bracket }).mutualRefinement
        (.ofEdges sharedEnd) none).2.asked := by
    decide +kernel
  exact parenthesis.1 ((same {} (.ofEdges sharedEnd) (by decide) (Graph.built_ofEdges _)
    parenthesis.2 bracket.2 _).mpr bracket.1)

end Session

end GrammarReach
