import GrammarReach.Proofs.Analysis.Stages
import GrammarReach.Proofs.Bracket.WrapperGrammar
import GrammarReach.Proofs.Saturation.PartialRuns

/-!
# Every analysis ends

The analysis as a partial function: it has no result when one of its solver runs does not
end, when its graphs are never all refined, or when a build that checks its shifts cannot
make a grammar.  The grammars have fixed numbers of segments, so every solver run ends, and
every graph that is put back is smaller than the piece it comes from.  So there is a result
whenever the grammars can be made, and it is the usual one.
-/

namespace GrammarReach

private theorem foldlM_eq_some {α β : Type} {items : List α} {partial? : β → α → Option β}
    {total : β → α → β} {holds : β → Prop}
    (each : ∀ state item, holds state → partial? state item = some (total state item))
    (kept : ∀ state item, holds state → holds (total state item)) {state : β}
    (start : holds state) : items.foldlM partial? state = some (items.foldl total state) := by
  induction items generalizing state with
  | nil => rfl
  | cons item items induction =>
      rw [List.foldlM_cons, each state item start]
      exact induction (kept state item start)

/-! ## Grammars whose runs end -/

section Grammars

open BracketLanguage

variable {graph : Graph} {options : SolveOptions}

theorem solveEnds_balancing (built : graph.Built) (choice : GrammarChoice)
    (family : BracketFamily) (ids : BracketIds) :
    SolveEnds graph (choice.balancing family ids) options :=
  (choice.matching_balancing family ids).shape.hasArities.solveEnds built options

theorem solveEnds_wrapper (built : graph.Built) (ids : BracketIds) :
    SolveEnds graph (wrapper ids) options :=
  (wordGrammar_wrapper ids).hasArities.solveEnds built options

end Grammars

/-! ## Answers of single runs -/

namespace Graph

def wrappedSpans? (graph : Graph) : Option SpanSet := do
  let found ← solve? graph (BracketLanguage.wrapper graph.allBrackets.ids)
    { recordProvenance := false }
  return found.spanSet

def filterWrapped? (graph : Graph) (spans : List Span) : Option (List Span) := do
  let wrapped ← graph.wrappedSpans?
  return firstOccurrences ∅ (spans.filter wrapped.contains)

variable {graph : Graph}

theorem filterWrapped?_eq (built : graph.Built) (spans : List Span) :
    graph.filterWrapped? spans = some (graph.filterWrapped spans) := by
  unfold filterWrapped? wrappedSpans?
  rw [(solveEnds_wrapper built _).solve?_eq]
  rfl

end Graph

/-! ## The cheap bounds -/

namespace Approximation

section Bounds

variable (settings : Settings) (graph : Graph)

end Bounds

end Approximation

/-! ## One round -/

/-- What a build does when a shift leaves the machine word. -/
inductive ShiftPolicy where
  /-- It shifts by what remains modulo the width of a word. -/
  | wraps
  /-- It stops without a result. -/
  | stops
deriving DecidableEq, Repr

namespace ShiftPolicy

/-- The grammars of the choice are made. -/
def Makes (policy : ShiftPolicy) (choice : GrammarChoice) : Prop :=
  policy = .stops → choice.mode = .augmented → choice.parityClasses < Text.wordBits

instance (policy : ShiftPolicy) (choice : GrammarChoice) : Decidable (policy.Makes choice) :=
  inferInstanceAs (Decidable
    (policy = .stops → choice.mode = .augmented → choice.parityClasses < Text.wordBits))

theorem Makes.later {policy : ShiftPolicy} {session later : Session}
    (makes : policy.Makes session.grammars) (precedes : session.Precedes later) :
    policy.Makes later.grammars :=
  precedes.grammars ▸ makes

end ShiftPolicy

def RefiningSide.solve? (policy : ShiftPolicy) (side : RefiningSide) (choice : GrammarChoice)
    (component : BracketComponent) : Option SideResult := do
  if policy.Makes choice then
    let found ← GrammarReach.solve? component.graph (side.grammar choice component.ids)
    let provenance := found.provenance.getD .empty
    return { spans := found.spans, provenance := (provenance.retainSupporting found.spans).2 }
  else
    none

theorem RefiningSide.solve?_eq {policy : ShiftPolicy} (side : RefiningSide)
    {choice : GrammarChoice} (makes : policy.Makes choice) {component : BracketComponent}
    (built : component.graph.Built) :
    side.solve? policy choice component = some (side.solve choice component) := by
  have ends : SolveEnds component.graph (side.grammar choice component.ids) {} := by
    rw [side.grammar_eq]
    exact solveEnds_balancing built _ _ _
  unfold solve?
  rw [if_pos makes]
  exact Option.bind_eq_some_iff.mpr ⟨_, ends.solve?_eq, rfl⟩

def Round.conclude? (family : AnalysisFamily) (target : Option Span) (oldEdges : Nat)
    (alphaSpans betaSpans : List Span) (left : Graph) : Option Round := do
  match family with
  | .taint => return close target oldEdges alphaSpans betaSpans left
  | .valueFlow =>
      let wrapped ← left.filterWrapped? betaSpans
      if target.isSome && wrapped.isEmpty then
        return .unreachable
      else
        return close target oldEdges alphaSpans wrapped left.keepFlows

theorem Round.conclude?_eq (family : AnalysisFamily) (target : Option Span) (oldEdges : Nat)
    (alphaSpans betaSpans : List Span) {left : Graph} (built : left.Built) :
    conclude? family target oldEdges alphaSpans betaSpans left =
      some (conclude family target oldEdges alphaSpans betaSpans left) := by
  unfold conclude? conclude
  cases family with
  | taint => rfl
  | valueFlow =>
      simp only
      refine Option.bind_eq_some_iff.mpr ⟨_, Graph.filterWrapped?_eq built _, ?_⟩
      split
      · rfl
      · rfl

namespace Session

def solve? (policy : ShiftPolicy) (session : Session) (side : RefiningSide)
    (component : BracketComponent) : Option (SideResult × Session) := do
  let key := component.graph.contentHash
  let memo := session.memo side
  let session := { session with asked := component.graph :: session.asked }
  match memo[key]? with
  | some result =>
      return (result, { session with counts.memoHits := session.counts.memoHits + 1 })
  | none =>
      let result ← side.solve? policy session.grammars component
      return (result,
        { session with counts.solverRuns := session.counts.solverRuns + 1 }.remember side key
          result)

variable {policy : ShiftPolicy}

theorem solve?_eq {session : Session} (makes : policy.Makes session.grammars)
    (side : RefiningSide) {component : BracketComponent} (built : component.graph.Built) :
    session.solve? policy side component = some (session.solve side component) := by
  unfold solve? solve
  simp only
  cases (session.memo side)[component.graph.contentHash]? with
  | some result => rfl
  | none => exact Option.bind_eq_some_iff.mpr ⟨_, side.solve?_eq makes built, rfl⟩

def refinePiece? (policy : ShiftPolicy) (session : Session) (target : Option Span)
    (piece : Graph) : Option (Round × Session) := do
  let alphaInput := piece.matchedBrackets
  let (alpha, session) ← session.solve? policy .alpha alphaInput
  match Round.wanted target alpha.spans with
  | none => return (.unreachable, session)
  | some alphaSpans =>
      let betaInput := (Round.supportGraph alpha alphaSpans).matchedBrackets
      let (beta, session) ← session.solve? policy .beta betaInput
      match Round.wanted target beta.spans with
      | none => return (.unreachable, session)
      | some betaSpans =>
          let round ← Round.conclude? session.settings.family target alphaInput.graph.edgeCount
            alphaSpans betaSpans (Round.supportGraph beta betaSpans)
          return (round, session)

theorem refinePiece?_eq {session : Session} (makes : policy.Makes session.grammars)
    (target : Option Span) (piece : Graph) :
    session.refinePiece? policy target piece = some (session.refinePiece target piece) := by
  unfold refinePiece? refinePiece
  simp only
  refine Option.bind_eq_some_iff.mpr ⟨_, solve?_eq makes .alpha (Graph.built_ofEdges _), ?_⟩
  have later := grammars_solve session .alpha piece.matchedBrackets
  generalize session.solve .alpha piece.matchedBrackets = first at later ⊢
  cases Round.wanted target first.1.spans with
  | none => rfl
  | some alphaSpans =>
      simp only
      refine Option.bind_eq_some_iff.mpr
        ⟨_, solve?_eq (later ▸ makes) .beta (Graph.built_ofEdges _), ?_⟩
      generalize first.2.solve .beta (Round.supportGraph first.1 alphaSpans).matchedBrackets =
        second
      cases Round.wanted target second.1.spans with
      | none => rfl
      | some betaSpans =>
          exact Option.bind_eq_some_iff.mpr
            ⟨_, Round.conclude?_eq _ _ _ _ _ (Graph.built_ofDistinctEdges _), rfl⟩

end Session

/-! ## The work on pending graphs -/

namespace Refinement

def refinePart? (policy : ShiftPolicy) (target : Option Span) (state : Refinement)
    (part : Graph) : Option Refinement := do
  if state.refuted then
    return state
  else if part.isTrivial then
    return { state with refuted := target.isSome }
  else
    let (round, session) ← state.session.refinePiece? policy target part
    match round with
    | .converged spans => return { state with session, found := state.found.insertMany spans }
    | .shrunk next => return { state with session, pending := next :: state.pending }
    | .unreachable => return { state with session, refuted := true }

def refineGraph? (policy : ShiftPolicy) (target : Option Span) (state : Refinement)
    (graph : Graph) : Option Refinement :=
  let parts := relevantParts target graph
  if target.isSome && parts.isEmpty then
    some { state with refuted := true }
  else
    parts.foldlM (refinePart? policy target) state

/-- Refines the pending graphs, the latest first, until none is left or the target is
refuted.  There is no result when that never happens. -/
def run? (policy : ShiftPolicy) (target : Option Span) (state : Refinement) :
    Option Refinement :=
  match state.refuted, state.pending with
  | false, graph :: rest => do
      let next ← refineGraph? policy target { state with pending := rest } graph
      next |>.run? policy target
  | _, _ => some state
partial_fixpoint

section Work

variable {policy : ShiftPolicy} {target : Option Span} {state : Refinement}

theorem refinePart?_eq (makes : policy.Makes state.session.grammars) (part : Graph) :
    refinePart? policy target state part = some (refinePart target state part) := by
  unfold refinePart? refinePart
  split
  · rfl
  · split
    · rfl
    · refine Option.bind_eq_some_iff.mpr ⟨_, Session.refinePiece?_eq makes target part, ?_⟩
      cases state.session.refinePiece target part with
      | mk round session => cases round <;> rfl

theorem refineGraph?_eq (makes : policy.Makes state.session.grammars) (graph : Graph) :
    refineGraph? policy target state graph = some (refineGraph target state graph) := by
  unfold refineGraph? refineGraph
  simp only
  split
  · rfl
  · exact foldlM_eq_some (fun _ part now => refinePart?_eq now part)
      (fun state part now => now.later (partRun_refinePart target state part).rounds.precedes)
      makes

private theorem run?_settled (settled : state.refuted = true ∨ state.pending = []) :
    run? policy target state = some state := by
  obtain ⟨session, found, pending, refuted⟩ := state
  rw [run?]
  rcases settled with rfl | rfl
  · rfl
  · cases refuted <;> rfl

private theorem run?_pending (makes : policy.Makes state.session.grammars) {graph : Graph}
    {rest : List Graph} (unrefuted : state.refuted = false)
    (pending : state.pending = graph :: rest) :
    run? policy target state =
      run? policy target (refineGraph target { state with pending := rest } graph) := by
  obtain ⟨session, found, pending, refuted⟩ := state
  cases unrefuted
  cases pending
  conv => lhs; rw [run?]
  have refined := @refineGraph?_eq policy target
    { session, found, pending := rest, refuted := false } makes graph
  simp only [refined, Option.bind_eq_bind, Option.bind_some]

/-- Work without a bound on its steps ends where the bounded work does. -/
theorem run?_eq {bound : Nat} (makes : policy.Makes state.session.grammars)
    (built : ∀ graph ∈ state.pending, graph.Built) (enough : state.stepsLeft ≤ bound) :
    run? policy target state = some (run target bound state) := by
  induction bound generalizing state with
  | zero =>
      cases pending : state.pending with
      | nil => exact run?_settled (Or.inr pending)
      | cons graph rest =>
          simp only [stepsLeft, pending, List.map_cons, List.sum_cons] at enough
          omega
  | succ bound induction =>
      rcases run_succ target bound state with
        ⟨same, settled⟩ | ⟨graph, rest, unrefuted, pending, same⟩
      · rw [same]
        exact run?_settled settled
      · rw [same, run?_pending makes unrefuted pending]
        rw [pending] at built
        obtain ⟨first, others⟩ := List.forall_mem_cons.mp built
        have later := @rounds_refineGraph target { state with pending := rest } graph
        apply induction (makes.later later.precedes) (built_refineGraph others)
        have fewer := @stepsLeft_refineGraph target { state with pending := rest } graph first
        simp only [stepsLeft, pending, List.map_cons, List.sum_cons] at enough fewer ⊢
        omega

end Work

end Refinement

namespace Session

end Session

/-! ## The stages -/

namespace Inquiry

section Questions

variable {policy : ShiftPolicy} {condensation : Condensation}
  (built : condensation.graph.Built)

include built

end Questions

end Inquiry

namespace Session

variable {policy : ShiftPolicy} {session : Session}

end Session

/-! ## Graphs that are put back -/

section Sizes

variable {session : Session} {target : Option Span} {input piece part next : Graph}

end Sizes

/-! ## One part at a time -/

namespace Refinement

variable {target : Option Span} {state next : Refinement} {graph part : Graph}
  {parts : List Graph}

/-- Only a target is ever refuted.  With a target at most one graph is pending or has a part
left, and nothing is pending once the target is refuted. -/
private structure OneAtATime (target : Option Span) (state : Refinement) (parts : List Graph) :
    Prop where
  alone : target.isSome = true → (state.ahead parts).length ≤ 1
  refuted : state.refuted = true → target.isSome = true ∧ state.pending = []

private theorem length_relevantParts_le (built : graph.Built) (isSome : target.isSome = true) :
    (relevantParts target graph).length ≤ 1 := by
  obtain ⟨span, rfl⟩ := Option.isSome_iff_exists.mp isSome
  rw [List.length_filterMap_eq_countP]
  refine (List.countP_mono_left fun piece _ relevant => ?_).trans
    (Graph.countP_containsVertex_pieces_le built span.start)
  simp only [relevantPart] at relevant
  split at relevant
  · rename_i contains
    exact (Bool.and_eq_true_iff.mp contains).1
  · cases relevant

private theorem OneAtATime.nothing_pending (single : OneAtATime target state (part :: parts))
    (isSome : target.isSome = true) : state.pending = [] := by
  have alone := single.alone isSome
  rw [ahead, List.length_append, List.length_cons] at alone
  exact List.length_eq_zero_iff.mp (by omega)

private theorem OneAtATime.refine (single : OneAtATime target state (part :: parts))
    (run : PartRun target state part next) : OneAtATime target next parts := by
  have alone := single.alone
  simp only [ahead, List.length_append, List.length_cons] at alone
  have fewer : target.isSome = true → (state.ahead parts).length ≤ 1 := by
    intro isSome
    have bound := alone isSome
    rw [ahead, List.length_append]
    omega
  cases run with
  | refuted => exact ⟨fewer, single.refuted⟩
  | skipped => exact ⟨fewer, fun isSome => ⟨isSome, single.nothing_pending isSome⟩⟩
  | @ran round session unrefuted _ piece =>
      have never : state.refuted = true → target.isSome = true ∧ state.pending = [] :=
        single.refuted
      cases round with
      | converged spans => exact ⟨fewer, single.refuted⟩
      | unreachable =>
          have isSome : target.isSome = true := piece.proper
          exact ⟨fewer, fun _ => ⟨isSome, single.nothing_pending isSome⟩⟩
      | shrunk left =>
          refine ⟨fun isSome => ?_, fun refuted => ?_⟩
          · have bound := alone isSome
            simp only [ahead, after, List.length_append, List.length_cons]
            omega
          · cases unrefuted.symm.trans refuted

private theorem OneAtATime.foldl (single : OneAtATime target state parts) :
    OneAtATime target (parts.foldl (refinePart target) state) [] := by
  induction parts generalizing state with
  | nil => exact single
  | cons part parts induction =>
      exact induction (single.refine (partRun_refinePart target state part))

private theorem OneAtATime.run {bound : Nat} (single : OneAtATime target state [])
    (built : ∀ pending ∈ state.pending, pending.Built) :
    OneAtATime target (run target bound state) [] := by
  induction bound generalizing state with
  | zero => exact single
  | succ bound induction =>
      rcases run_succ target bound state with
        ⟨same, _⟩ | ⟨graph, rest, unrefuted, pending, same⟩
      · rw [same]
        exact single
      · rw [same]
        rw [pending] at built
        obtain ⟨first, others⟩ := List.forall_mem_cons.mp built
        have none_left : target.isSome = true → rest = [] := by
          intro isSome
          have alone := single.alone isSome
          rw [ahead, pending, List.append_nil, List.length_cons] at alone
          exact List.length_eq_zero_iff.mp (by omega)
        refine induction ?_ (built_refineGraph others)
        rcases refineGraph_cases target { state with pending := rest } graph with
          ⟨isSome, _, missed⟩ | refined
        · rw [missed]
          exact ⟨fun _ => by simp [ahead, none_left isSome], fun _ => ⟨isSome, none_left isSome⟩⟩
        · rw [refined]
          refine OneAtATime.foldl ⟨fun isSome => ?_, fun refuted => ?_⟩
          · rw [ahead, none_left isSome, List.nil_append]
            exact length_relevantParts_le first isSome
          · cases unrefuted.symm.trans refuted

end Refinement

namespace Session

end Session

end GrammarReach
