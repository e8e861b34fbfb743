import GrammarReach.Proofs.Analysis.Refinement
import GrammarReach.Proofs.Analysis.SettledRounds
import GrammarReach.Proofs.Analysis.Stages

/-!
# Comparing refinements

Two refinements of one graph shrink it differently and stop in different rounds.  What
one answers from a settled piece the other one answers too, when it accepts at least the
words of the piece.  A round that leaves no edge answers without a settled piece, and there
they may differ.
-/

namespace GrammarReach

section Settled

variable {choice : GrammarChoice} {settings : Settings} {target : Option Span}
  {piece input : Graph} {span : Span}

/-- Of what sustains a settled piece, the edges linked with the span sustain it too. -/
theorem Settles.mem_mutualRefinement {accepts : Acceptance}
    (settles : Settles choice settings.family target piece span)
    (within : piece.edgeSet ⊆ input.edgeSet)
    (weaker : ∀ family word, choice.acceptance piece.matchedBrackets.ids family word →
      accepts family word)
    (steady : Steady (settings.grammars settings.mode) input accepts
      (linkedEdges piece.matchedBrackets.graph.edgeSet span.start))
    (built : input.Built)
    (free : CollisionFree ((Session.ofSettings settings).mutualRefinement input none).2.asked) :
    span ∈ ((Session.ofSettings settings).mutualRefinement input none).1 := by
  have sustained := (settles.sustained.imp weaker).linked span.start
  have inside : linkedEdges piece.matchedBrackets.graph.edgeSet span.start ⊆ input.edgeSet :=
    (linkedEdges_subset _ _).trans ((Graph.matchedBrackets_subset piece).trans within)
  exact sustained.mem_mutualRefinement (settles.answered.imp weaker).linked
    (connectedAt_linkedEdges _ _) steady built inside free

end Settled

/-! ## The classes of a graph and of its parts -/

/-- The grammars count one class, or at most one id more than there are classes occurs
matched in the graph. -/
def Settings.FewIds (settings : Settings) (graph : Graph) : Prop :=
  settings.mode = .augmented → settings.parityClasses ≤ 1 ∨
    ∀ family, (graph.matchedBrackets.ids.ofFamily family).length ≤ settings.parityClasses + 1

/-- With few ids a graph accepts what a smaller one accepts. -/
theorem Settings.FewIds.widen {settings : Settings} {input : Graph}
    (few : settings.FewIds input) (fits : (settings.grammars settings.mode).WithinWord)
    {smaller larger : BracketComponent} (exact : smaller.Exact)
    (largerExact : larger.Exact) (sub : smaller.graph.edgeSet ⊆ larger.graph.edgeSet)
    (within : larger.graph.edgeSet ⊆ input.matchedBrackets.graph.edgeSet)
    {family : BracketFamily} {word : List Label}
    (accepted : (settings.grammars settings.mode).acceptance smaller.ids family word) :
    (settings.grammars settings.mode).Accepts family larger.ids word := by
  refine accepted.1.widen fits accepted.2 exact.bounded (exact.distinct _)
    (exact.ids_subset largerExact sub _) fun augmented => (few augmented).imp_right ?_
  intro bound
  have fewer : (larger.ids.ofFamily family.other).Subperm
      (input.matchedBrackets.ids.ofFamily family.other) :=
    (largerExact.distinct _).subperm
      (largerExact.ids_subset input.exact_matchedBrackets within _)
  exact fewer.length_le.trans (bound family.other)

namespace Session

/-! ## The two modes -/

/-- What the augmented mode answers the classic mode answers, unless a round that leaves no
edge answers it. -/
theorem mem_classic_of_augmented {classic augmented : Settings}
    (isClassic : classic.mode = .classic)
    (sameSettings : augmented = { classic with mode := .augmented }) {graph : Graph}
    (built : graph.Built)
    (free : CollisionFree ((ofSettings augmented).mutualRefinement graph none).2.asked)
    (classicFree : CollisionFree ((ofSettings classic).mutualRefinement graph none).2.asked) :
    ∀ span ∈ ((ofSettings augmented).mutualRefinement graph none).1,
      span ∈ ((ofSettings classic).mutualRefinement graph none).1 ∨
        augmented.Exhausted none graph span := by
  subst sameSettings
  intro span member
  rcases exhausted_or_settles (by simp) free member with exhausted | ⟨piece, within, settles⟩
  · exact Or.inr exhausted
  · left
    refine @Settles.mem_mutualRefinement _ classic _ _ _ _
      (fun family word => family.Matched word) settles within
      (fun family word accepted => accepted.1.matched) ?_ built classicFree
    intro other _ _ family word matched
    refine ⟨matched.wellNested_only, fun isAugmented => ?_⟩
    rw [Settings.grammars, isClassic] at isAugmented
    cases isAugmented

/-- The shortest value flow is answered in both modes. -/
theorem mem_classic_of_augmented_flowPath :
    ⟨0, 2⟩ ∈ ((ofSettings { family := .valueFlow, parityClasses := 1 }).mutualRefinement
        (.ofEdges flowPath) none).1 ∨
      ({ family := .valueFlow, mode := .augmented, parityClasses := 1 } : Settings).Exhausted
        none (.ofEdges flowPath) ⟨0, 2⟩ := by
  have free : CollisionFree ((ofSettings
      { family := .valueFlow, mode := .augmented, parityClasses := 1 }).mutualRefinement
        (.ofEdges flowPath) none).2.asked := by
    decide +kernel
  have classicFree : CollisionFree ((ofSettings
      { family := .valueFlow, parityClasses := 1 }).mutualRefinement
        (.ofEdges flowPath) none).2.asked := by
    decide +kernel
  have built := Graph.built_ofEdges flowPath
  have answered := mem_mutualRefinement (valid_ofSettings _) (fun _ => by decide) built free
    balancedWalk_flowPath (by decide) (fits_none _)
  exact @mem_classic_of_augmented { family := .valueFlow, parityClasses := 1 } _ rfl rfl _ built
    free classicFree ⟨0, 2⟩ answered

/-- Two pairs of parentheses around lone brackets.  The first and the last parenthesis do
not match, and the brackets between them only count as even. -/
def splitPairs : List Edge :=
  [⟨0, 1, "op--0"⟩, ⟨1, 2, "ob--1"⟩, ⟨2, 3, "cp--0"⟩, ⟨3, 4, "op--1"⟩, ⟨4, 1, "cb--0"⟩,
    ⟨1, 5, "cp--1"⟩, ⟨0, 5, "cb--1"⟩, ⟨4, 6, "ob--0"⟩]

/-- The augmented mode has no edge left in the first round and answers, while the classic
mode goes on with the parentheses and refutes. -/
theorem not_augmented_subset_classic :
    ¬ ∀ (classic : Settings) (graph : Graph), classic.IsValid → classic.mode = .classic →
      graph.Built →
      CollisionFree
        ((ofSettings { classic with mode := .augmented }).mutualRefinement graph none).2.asked →
      CollisionFree ((ofSettings classic).mutualRefinement graph none).2.asked →
      ∀ span ∈ ((ofSettings { classic with mode := .augmented }).mutualRefinement graph none).1,
        span ∈ ((ofSettings classic).mutualRefinement graph none).1 := by
  intro within
  have augmented :
      ⟨0, 5⟩ ∈ ((ofSettings { mode := .augmented, parityClasses := 1 }).mutualRefinement
        (.ofEdges splitPairs) none).1 ∧
      CollisionFree ((ofSettings { mode := .augmented, parityClasses := 1 }).mutualRefinement
        (.ofEdges splitPairs) none).2.asked := by
    decide +kernel
  have classic : ⟨0, 5⟩ ∉ ((ofSettings { parityClasses := 1 }).mutualRefinement
        (.ofEdges splitPairs) none).1 ∧
      CollisionFree ((ofSettings { parityClasses := 1 }).mutualRefinement
        (.ofEdges splitPairs) none).2.asked := by
    decide +kernel
  exact classic.1 (within { parityClasses := 1 } (.ofEdges splitPairs) (by decide) rfl
    (Graph.built_ofEdges _) augmented.2 classic.2 _ augmented.1)

/-! ## One pair and all pairs -/

/-- A pair that is confirmed alone is among the answers for all pairs, unless a round that
leaves no edge confirms it, there are more matched ids than the classes tell apart, or more
classes than a machine word counts. -/
theorem mem_allPairs_of_singlePair {settings : Settings} {graph : Graph} (built : graph.Built)
    (few : settings.FewIds graph) (fits : (settings.grammars settings.mode).WithinWord)
    {pair : Span}
    (free : CollisionFree ((ofSettings settings).mutualRefinement graph (some pair)).2.asked)
    (allFree : CollisionFree ((ofSettings settings).mutualRefinement graph none).2.asked)
    (member : pair ∈ ((ofSettings settings).mutualRefinement graph (some pair)).1) :
    pair ∈ ((ofSettings settings).mutualRefinement graph none).1 ∨
      settings.Exhausted (some pair) graph pair := by
  have irreflexive :=
    (confirmed_of_mutualRefinement (valid_ofSettings settings) free member).irreflexive
  have different : ∀ asked, some pair = some asked → asked.isReflexive = false := by
    intro asked same
    cases same
    exact irreflexive
  rcases exhausted_or_settles different free member with exhausted | ⟨piece, within, settles⟩
  · exact Or.inr exhausted
  · left
    refine settles.mem_mutualRefinement within (fun _ _ => id) ?_ built allFree
    intro other inside reduced family word accepted
    have sub : piece.matchedBrackets.graph.edgeSet ⊆ other.edgeSet :=
      fun edge inPiece => inside ⟨inPiece, settles.connected rfl edge inPiece⟩
    refine few.widen fits piece.exact_matchedBrackets other.exact_matchedBrackets ?_ reduced
      accepted
    exact settles.sustained.subset_matchedBrackets (fun _ _ known => known.1.matched) sub

/-- The crossing walk is confirmed alone and among all pairs. -/
theorem mem_allPairs_of_singlePair_crossing :
    ⟨0, 4⟩ ∈ ((ofSettings {}).mutualRefinement (.ofEdges crossingPath) none).1 ∨
      ({} : Settings).Exhausted (some ⟨0, 4⟩) (.ofEdges crossingPath) ⟨0, 4⟩ := by
  have free : CollisionFree ((ofSettings {}).mutualRefinement (.ofEdges crossingPath)
      (some ⟨0, 4⟩)).2.asked := by
    decide +kernel
  have built := Graph.built_ofEdges crossingPath
  have confirmed := mem_mutualRefinement (valid_ofSettings _) (fun _ => by decide) built free
    balancedWalk_crossingPath (by decide) (fun _ same => Option.some.inj same)
  exact mem_allPairs_of_singlePair built (fun augmented => by cases augmented)
    (fun _ => by decide) free (collisionFree_crossingPath .parenthesis) confirmed

/-- The first parenthesis and the closing bracket lead from the same vertex to the same
one, but only the parenthesis goes on to a partner. -/
def sharedStart : List Edge :=
  [⟨2, 0, "cb--0"⟩, ⟨0, 1, "cp--0"⟩, ⟨1, 0, "ob--0"⟩, ⟨2, 0, "op--0"⟩]

/-- Alone the pair is confirmed by a round that leaves no edge.  Among all pairs the
parentheses of another pair are left, and the next round refutes it. -/
theorem not_singlePair_subset_allPairs :
    ¬ ∀ (settings : Settings) (graph : Graph) (pair : Span), settings.IsValid → graph.Built →
      CollisionFree ((ofSettings settings).mutualRefinement graph (some pair)).2.asked →
      CollisionFree ((ofSettings settings).mutualRefinement graph none).2.asked →
      pair ∈ ((ofSettings settings).mutualRefinement graph (some pair)).1 →
        pair ∈ ((ofSettings settings).mutualRefinement graph none).1 := by
  intro confirms
  have single : ⟨2, 0⟩ ∈ ((ofSettings {}).mutualRefinement (.ofEdges sharedStart)
        (some ⟨2, 0⟩)).1 ∧
      CollisionFree ((ofSettings {}).mutualRefinement (.ofEdges sharedStart)
        (some ⟨2, 0⟩)).2.asked := by
    decide +kernel
  have all : ⟨2, 0⟩ ∉ ((ofSettings {}).mutualRefinement (.ofEdges sharedStart) none).1 ∧
      CollisionFree ((ofSettings {}).mutualRefinement (.ofEdges sharedStart) none).2.asked := by
    decide +kernel
  exact all.1 (confirms {} (.ofEdges sharedStart) ⟨2, 0⟩ (by decide) (Graph.built_ofEdges _)
    single.2 all.2 single.1)

end Session

end GrammarReach
