import GrammarReach.Proofs.Analysis.Rounds
import GrammarReach.Proofs.Graph.Pieces
import GrammarReach.Proofs.Graph.Restriction
import Mathlib.Logic.Relation

/-!
# Runs of a refinement

A step of a run splits the latest graph into the parts that matter and runs a round on
each of them.  What every step keeps holds at the end of the run, and the edges of the
input bound the number of rounds.
-/

namespace GrammarReach

namespace Session

/-- A session comes from another one by rounds. -/
def Rounds : Session → Session → Prop :=
  Relation.ReflTransGen fun earlier later =>
    ∃ target piece round, PieceRun earlier target piece (round, later)

theorem Rounds.refl (session : Session) : session.Rounds session :=
  Relation.ReflTransGen.refl

theorem Rounds.trans {first second third : Session} (before : first.Rounds second)
    (behind : second.Rounds third) : first.Rounds third :=
  Relation.ReflTransGen.trans before behind

theorem PieceRun.rounds {session later : Session} {target : Option Span} {piece : Graph}
    {round : Round} (run : PieceRun session target piece (round, later)) :
    session.Rounds later :=
  Relation.ReflTransGen.single ⟨target, piece, round, run⟩

theorem Rounds.precedes {earlier later : Session} (rounds : earlier.Rounds later) :
    earlier.Precedes later := by
  induction rounds with
  | refl => exact .refl earlier
  | tail _ step induction =>
      obtain ⟨target, piece, round, run⟩ := step
      exact induction.trans run.precedes

end Session

namespace Refinement

/-! ## One part -/

/-- The state after a round. -/
def after (state : Refinement) (session : Session) : Round → Refinement
  | .converged spans => { state with session, found := state.found.insertMany spans }
  | .shrunk next => { state with session, pending := next :: state.pending }
  | .unreachable => { state with session, refuted := true }

/-- What a step on a part can do: nothing once the target is refuted, nothing but
refute the target without labelled edges, or run a round. -/
inductive PartRun (target : Option Span) (state : Refinement) (part : Graph) :
    Refinement → Prop where
  | refuted : state.refuted = true → PartRun target state part state
  | skipped : state.refuted = false → part.isTrivial = true →
      PartRun target state part { state with refuted := target.isSome }
  | ran {round : Round} {session : Session} : state.refuted = false →
      part.isTrivial = false → Session.PieceRun state.session target part (round, session) →
      PartRun target state part (state.after session round)

theorem partRun_refinePart (target : Option Span) (state : Refinement) (part : Graph) :
    PartRun target state part (refinePart target state part) := by
  unfold refinePart
  cases refuted : state.refuted with
  | true => exact .refuted refuted
  | false =>
      cases trivial : part.isTrivial with
      | true => exact .skipped refuted trivial
      | false =>
          have run := state.session.pieceRun_refinePiece target part
          cases outcome : state.session.refinePiece target part with
          | mk round session =>
              rw [outcome] at run
              have ran := PartRun.ran refuted trivial run
              unfold after at ran
              rw [refuted] at ran
              simp only [Bool.false_eq_true, if_false]
              cases round <;> exact ran

section Part

variable {target : Option Span} {state next : Refinement} {part : Graph} {parts : List Graph}

theorem PartRun.rounds (run : PartRun target state part next) :
    state.session.Rounds next.session := by
  cases run with
  | refuted => exact .refl _
  | skipped => exact .refl _
  | @ran round session _ _ piece =>
      have rounds := piece.rounds
      cases round <;> exact rounds

/-- The graphs that are still to be refined or are being refined. -/
abbrev ahead (state : Refinement) (parts : List Graph) : List Graph :=
  state.pending ++ parts

theorem PartRun.built (run : PartRun target state part next)
    (built : ∀ graph ∈ state.ahead (part :: parts), graph.Built) :
    ∀ graph ∈ next.ahead parts, graph.Built := by
  have old : ∀ graph ∈ state.ahead parts, graph.Built := by
    intro graph member
    apply built graph
    exact (List.mem_append.mp member).elim (List.mem_append_left _)
      fun later => List.mem_append_right _ (.tail _ later)
  cases run with
  | refuted => exact old
  | skipped => exact old
  | @ran round session _ _ piece =>
      have proper := piece.proper
      cases round with
      | converged spans => exact old
      | unreachable => exact old
      | shrunk left => exact List.forall_mem_cons.mpr ⟨proper.1, old⟩

/-- The steps that the pending graphs can still take. -/
def stepsLeft (state : Refinement) : Nat :=
  (state.pending.map fun graph => graph.edgeCount + 1).sum

private theorem PartRun.stepsLeft_le (run : PartRun target state part next)
    (built : part.Built) : next.stepsLeft ≤ state.stepsLeft + part.weight := by
  cases run with
  | refuted => exact Nat.le_add_right _ _
  | skipped => exact Nat.le_add_right _ _
  | @ran round session _ _ piece =>
      have proper := piece.proper
      have bound := part.edgeCount_matchedBrackets.trans_le (built.weight_ofEdges_filter_le _)
      cases round with
      | converged spans => exact Nat.le_add_right _ _
      | unreachable => exact Nat.le_add_right _ _
      | shrunk left =>
          have fewer : left.edgeCount < part.matchedBrackets.graph.edgeCount := proper.2
          simp only [after, stepsLeft, List.map_cons, List.sum_cons]
          omega

end Part

/-! ## All parts of a graph -/

section Parts

variable {target : Option Span} {state : Refinement} {parts : List Graph}

theorem rounds_parts (target : Option Span) (state : Refinement)
    (parts : List Graph) :
    state.session.Rounds (parts.foldl (refinePart target) state).session := by
  induction parts generalizing state with
  | nil => exact .refl _
  | cons part parts induction =>
      exact (partRun_refinePart target state part).rounds.trans (induction _)

private theorem built_parts (built : ∀ graph ∈ state.ahead parts, graph.Built) :
    ∀ graph ∈ (parts.foldl (refinePart target) state).pending, graph.Built := by
  induction parts generalizing state with
  | nil => simpa [ahead] using built
  | cons part parts induction =>
      exact induction ((partRun_refinePart target state part).built built)

private theorem stepsLeft_parts (built : ∀ part ∈ parts, part.Built) :
    (parts.foldl (refinePart target) state).stepsLeft ≤
      state.stepsLeft + (parts.map Graph.weight).sum := by
  induction parts generalizing state with
  | nil => exact Nat.le_refl _
  | cons part parts induction =>
      obtain ⟨first, rest⟩ := List.forall_mem_cons.mp built
      have step := (partRun_refinePart target state part).stepsLeft_le first
      have steps := @induction (refinePart target state part) rest
      rw [List.foldl_cons, List.map_cons, List.sum_cons]
      omega

end Parts

/-! ## The parts that matter -/

section Relevant

variable {target : Option Span} {graph part : Graph}

/-- The parts of the pieces of a graph that can decide the target. -/
abbrev relevantParts (target : Option Span) (graph : Graph) : List Graph :=
  graph.pieces.filterMap (relevantPart target)

theorem relevantPart_cases {piece : Graph}
    (relevant : relevantPart target piece = some part) :
    part = piece ∨ ∃ span, target = some span ∧ part = piece.restrictTo [span] ∧
      span.start ∈ piece.vertices := by
  cases target with
  | none =>
      cases relevant
      exact Or.inl rfl
  | some span =>
      simp only [relevantPart] at relevant
      split at relevant
      · rename_i contains
        cases relevant
        have start := (Bool.and_eq_true_iff.mp contains).1
        exact Or.inr ⟨span, rfl, rfl, by simpa [Graph.containsVertex] using start⟩
      · cases relevant

theorem built_relevantParts (member : part ∈ relevantParts target graph) :
    part.Built := by
  obtain ⟨piece, isPiece, relevant⟩ := List.mem_filterMap.mp member
  have built := Graph.built_of_mem_pieces isPiece
  rcases relevantPart_cases relevant with rfl | ⟨span, _, rfl, _⟩
  · exact built
  · exact Graph.built_restrictTo built

theorem sub_relevantParts (member : part ∈ relevantParts target graph) :
    ∀ edge ∈ part.labelledEdges, edge ∈ graph.labelledEdges := by
  obtain ⟨piece, isPiece, relevant⟩ := List.mem_filterMap.mp member
  intro edge inPart
  rcases relevantPart_cases relevant with rfl | ⟨span, _, rfl, _⟩
  · exact Graph.labelledEdges_of_mem_pieces isPiece inPart
  · exact Graph.labelledEdges_of_mem_pieces isPiece (Graph.labelledEdges_of_restrictTo inPart)

private theorem sum_weight_relevantParts_le (built : graph.Built) :
    ((relevantParts target graph).map Graph.weight).sum ≤ graph.weight := by
  have general : ∀ pieces : List Graph, (∀ piece ∈ pieces, piece.Built) →
      ((pieces.filterMap (relevantPart target)).map Graph.weight).sum ≤
        (pieces.map Graph.weight).sum := by
    intro pieces allBuilt
    induction pieces with
    | nil => exact Nat.le_refl _
    | cons piece pieces induction =>
        obtain ⟨first, rest⟩ := List.forall_mem_cons.mp allBuilt
        have tail := induction rest
        cases relevant : relevantPart target piece with
        | none =>
            rw [List.filterMap_cons_none relevant, List.map_cons, List.sum_cons]
            omega
        | some part =>
            have lighter : part.weight ≤ piece.weight := by
              rcases relevantPart_cases relevant with rfl | ⟨span, _, rfl, _⟩
              · exact Nat.le_refl _
              · exact Graph.weight_restrictTo_le first
            rw [List.filterMap_cons_some relevant, List.map_cons, List.map_cons,
              List.sum_cons, List.sum_cons]
            omega
  exact (general graph.pieces fun piece => Graph.built_of_mem_pieces).trans
    (Graph.sum_weight_pieces_le built)

end Relevant

/-! ## All pending graphs -/

section Graphs

variable {target : Option Span} {state : Refinement} {graph : Graph}

theorem refineGraph_cases (target : Option Span) (state : Refinement) (graph : Graph) :
    (target.isSome = true ∧ relevantParts target graph = [] ∧
        refineGraph target state graph = { state with refuted := true }) ∨
      refineGraph target state graph =
        (relevantParts target graph).foldl (refinePart target) state := by
  unfold refineGraph
  by_cases missed : (target.isSome && (relevantParts target graph).isEmpty) = true
  · obtain ⟨isSome, isEmpty⟩ := Bool.and_eq_true_iff.mp missed
    exact Or.inl ⟨isSome, List.isEmpty_iff.mp isEmpty, if_pos missed⟩
  · exact Or.inr (if_neg missed)

theorem rounds_refineGraph :
    state.session.Rounds (refineGraph target state graph).session := by
  rcases refineGraph_cases target state graph with ⟨_, _, same⟩ | same
  · rw [same]
    exact .refl _
  · rw [same]
    exact rounds_parts _ _ _

theorem built_refineGraph (built : ∀ pending ∈ state.pending, pending.Built) :
    ∀ pending ∈ (refineGraph target state graph).pending, pending.Built := by
  rcases refineGraph_cases target state graph with ⟨_, _, same⟩ | same
  · rw [same]
    exact built
  · rw [same]
    exact built_parts fun part member =>
      (List.mem_append.mp member).elim (built part) built_relevantParts

theorem stepsLeft_refineGraph (built : graph.Built) :
    (refineGraph target state graph).stepsLeft < state.stepsLeft + (graph.edgeCount + 1) := by
  rcases refineGraph_cases target state graph with ⟨_, _, same⟩ | same
  · rw [same]
    exact Nat.lt_add_of_pos_right (Nat.succ_pos _)
  · have steps := @stepsLeft_parts target state (relevantParts target graph)
      fun part member => built_relevantParts member
    have parts := @sum_weight_relevantParts_le target graph built
    have weighs := built.weight_le
    rw [same]
    omega

end Graphs

/-! ## Runs -/

section Runs

variable {target : Option Span}

theorem run_succ (target : Option Span) (bound : Nat) (state : Refinement) :
    (run target (bound + 1) state = state ∧ (state.refuted = true ∨ state.pending = [])) ∨
      ∃ graph rest, state.refuted = false ∧ state.pending = graph :: rest ∧
        run target (bound + 1) state =
          run target bound (refineGraph target { state with pending := rest } graph) := by
  obtain ⟨session, found, pending, refuted⟩ := state
  cases refuted with
  | true => exact Or.inl ⟨rfl, Or.inl rfl⟩
  | false =>
      cases pending with
      | nil => exact Or.inl ⟨rfl, Or.inr rfl⟩
      | cons graph rest => exact Or.inr ⟨graph, rest, rfl, rfl, rfl⟩

theorem rounds_run (target : Option Span) (bound : Nat) (state : Refinement) :
    state.session.Rounds (run target bound state).session := by
  induction bound generalizing state with
  | zero => exact .refl _
  | succ bound induction =>
      rcases run_succ target bound state with ⟨same, _⟩ | ⟨graph, rest, _, _, same⟩
      · rw [same]
        exact .refl _
      · rw [same]
        have step := @rounds_refineGraph target { state with pending := rest } graph
        exact step.trans (induction _)

/-- With enough steps a run refutes the target or leaves nothing pending. -/
theorem settled_run {bound : Nat} {state : Refinement}
    (built : ∀ graph ∈ state.pending, graph.Built) (enough : state.stepsLeft ≤ bound) :
    (run target bound state).refuted = true ∨ (run target bound state).pending = [] := by
  induction bound generalizing state with
  | zero =>
      right
      cases pending : state.pending with
      | nil => exact pending
      | cons graph rest =>
          simp only [stepsLeft, pending, List.map_cons, List.sum_cons] at enough
          omega
  | succ bound induction =>
      rcases run_succ target bound state with ⟨same, settled⟩ | ⟨graph, rest, _, pending, same⟩
      · rw [same]
        exact settled
      · rw [same]
        rw [pending] at built
        obtain ⟨first, others⟩ := List.forall_mem_cons.mp built
        apply induction (built_refineGraph others)
        have fewer := @stepsLeft_refineGraph target { state with pending := rest } graph first
        simp only [stepsLeft, pending, List.map_cons, List.sum_cons] at enough fewer ⊢
        omega

end Runs

/-! ## What every step keeps -/

/-- A property of a state and the parts that its current graph still has, kept by a round on
a part, by taking up a pending graph, and by refuting a target that no part can decide. -/
structure Invariant (target : Option Span) (holds : Refinement → List Graph → Prop) :
    Prop where
  refine : ∀ {state next : Refinement} {part : Graph} {parts : List Graph},
    PartRun target state part next → CollisionFree next.session.asked →
    holds state (part :: parts) → holds next parts
  split : ∀ {state : Refinement} {graph : Graph} {rest : List Graph},
    state.pending = graph :: rest → holds state [] →
    holds { state with pending := rest } (relevantParts target graph)
  miss : ∀ {state : Refinement} {graph : Graph} {rest : List Graph},
    state.pending = graph :: rest → target.isSome = true → relevantParts target graph = [] →
    holds state [] → holds { state with pending := rest, refuted := true } []

section Invariants

variable {target : Option Span} {holds : Refinement → List Graph → Prop}

theorem Invariant.foldl (invariant : Invariant target holds) {state : Refinement}
    {parts : List Graph}
    (free : CollisionFree (parts.foldl (refinePart target) state).session.asked)
    (first : holds state parts) : holds (parts.foldl (refinePart target) state) [] := by
  induction parts generalizing state with
  | nil => exact first
  | cons part parts induction =>
      have freeNow := free.mono
        (rounds_parts target (refinePart target state part) parts).precedes.asked
      exact induction free
        (invariant.refine (partRun_refinePart target state part) freeNow first)

/-- What every step keeps holds at the end of a run. -/
theorem Invariant.run (invariant : Invariant target holds) {bound : Nat} {state : Refinement}
    (free : CollisionFree (run target bound state).session.asked) (first : holds state []) :
    holds (run target bound state) [] := by
  induction bound generalizing state with
  | zero => exact first
  | succ bound induction =>
      rcases run_succ target bound state with ⟨same, _⟩ | ⟨graph, rest, _, pending, same⟩
      · rw [same]
        exact first
      · rw [same] at free ⊢
        have freeNow := free.mono (rounds_run target bound _).precedes.asked
        refine induction free ?_
        rcases refineGraph_cases target { state with pending := rest } graph with
          ⟨isSome, none, missed⟩ | refined
        · rw [missed]
          exact @Invariant.miss target holds invariant state graph rest pending isSome none first
        · rw [refined] at freeNow ⊢
          exact invariant.foldl freeNow (invariant.split pending first)

end Invariants

end Refinement

namespace Session

theorem rounds_mutualRefinement (session : Session) (graph : Graph)
    (target : Option Span) :
    session.Rounds (session.mutualRefinement graph target).2 := by
  unfold mutualRefinement
  split
  · exact Refinement.rounds_run target _ { session, pending := [graph] }
  · exact .refl _

theorem precedes_mutualRefinement (session : Session) (graph : Graph)
    (target : Option Span) :
    session.Precedes (session.mutualRefinement graph target).2 :=
  (session.rounds_mutualRefinement graph target).precedes

end Session

namespace Refinement

/-! ## What a run comes to -/

/-- What is certain of every graph that a run puts up, of every part that it refines and of
every answer, because each round passes it on. -/
structure Course (target : Option Span) (sound : Session → Prop) (ahead part : Graph → Prop)
    (answer : Span → Prop) : Prop where
  session : ∀ {session : Session} {piece : Graph} {outcome : Round × Session},
    sound session → Session.PieceRun session target piece outcome → sound outcome.2
  relevant : ∀ {graph : Graph}, ahead graph → ∀ piece ∈ relevantParts target graph, part piece
  round : ∀ {session : Session} {piece : Graph} {outcome : Round × Session},
    sound session → part piece → Session.PieceRun session target piece outcome →
    CollisionFree outcome.2.asked → outcome.1.Yields ahead answer

/-- The state of a run that keeps to its course. -/
structure OnCourse (sound : Session → Prop) (ahead part : Graph → Prop) (answer : Span → Prop)
    (state : Refinement) (parts : List Graph) : Prop where
  session : sound state.session
  pending : ∀ graph ∈ state.pending, ahead graph
  parts : ∀ piece ∈ parts, part piece
  found : ∀ span ∈ state.found, answer span

section Courses

variable {target : Option Span} {sound : Session → Prop} {ahead part : Graph → Prop}
  {answer : Span → Prop}

theorem Course.invariant (course : Course target sound ahead part answer) :
    Invariant target (OnCourse sound ahead part answer) where
  refine := by
    intro state next piece parts run free onCourse
    obtain ⟨first, rest⟩ := List.forall_mem_cons.mp onCourse.parts
    cases run with
    | refuted => exact ⟨onCourse.session, onCourse.pending, rest, onCourse.found⟩
    | skipped => exact ⟨onCourse.session, onCourse.pending, rest, onCourse.found⟩
    | @ran round session _ _ run =>
        have later := course.session onCourse.session run
        have yields : CollisionFree session.asked → round.Yields ahead answer :=
          course.round onCourse.session first run
        cases round with
        | converged spans =>
            refine ⟨later, onCourse.pending, rest, fun span member => ?_⟩
            rcases Std.TreeSet.mem_insertMany_list.mp member with old | new
            · exact onCourse.found span old
            · exact yields free span (by simpa using new)
        | shrunk left =>
            exact ⟨later, List.forall_mem_cons.mpr ⟨yields free, onCourse.pending⟩, rest,
              onCourse.found⟩
        | unreachable => exact ⟨later, onCourse.pending, rest, onCourse.found⟩
  split := by
    intro state graph rest pending onCourse
    have all := onCourse.pending
    rw [pending] at all
    obtain ⟨first, others⟩ := List.forall_mem_cons.mp all
    exact ⟨onCourse.session, others, course.relevant first, onCourse.found⟩
  miss := by
    intro state graph rest pending _ _ onCourse
    have all := onCourse.pending
    rw [pending] at all
    exact ⟨onCourse.session, (List.forall_mem_cons.mp all).2, by simp, onCourse.found⟩

/-- Every answer of refinement is one that a course allows. -/
theorem Course.answer_of_mem (course : Course target sound ahead part answer)
    {session : Session} (first : sound session) {graph : Graph} (start : ahead graph)
    (free : CollisionFree (session.mutualRefinement graph target).2.asked) {span : Span}
    (member : span ∈ (session.mutualRefinement graph target).1) : answer span := by
  unfold Session.mutualRefinement at free member
  split at member
  · rename_i contains
    rw [if_pos contains] at free
    have begun : OnCourse sound ahead part answer { session, pending := [graph] } [] :=
      ⟨first, by simpa using start, by simp, by simp⟩
    have last := course.invariant.run free begun
    change span ∈ answers _ at member
    unfold answers at member
    split at member
    · simp at member
    · exact last.found span member
  · simp at member

end Courses

/-! ## What a run keeps until it is answered -/

/-- A property of graphs that one relevant part inherits, and all of them if there is a
target, and that every round keeps until it answers a span. -/
structure Retaining (target : Option Span) (sound : Session → Prop) (span : Span)
    (holds : Graph → Prop) : Prop where
  session : ∀ {session : Session} {piece : Graph} {outcome : Round × Session},
    sound session → Session.PieceRun session target piece outcome → sound outcome.2
  contained : ∀ {graph : Graph}, graph.Built → holds graph → graph.containsTarget target = true
  relevant : ∀ {graph : Graph}, graph.Built → holds graph →
    (∃ part ∈ relevantParts target graph, holds part) ∧
      (target.isSome = true → ∀ part ∈ relevantParts target graph, holds part)
  nontrivial : ∀ {part : Graph}, part.Built → holds part → part.isTrivial = false
  round : ∀ {session : Session} {piece : Graph} {outcome : Round × Session},
    sound session → piece.Built → holds piece →
    Session.PieceRun session target piece outcome → CollisionFree outcome.2.asked →
    outcome.1.Keeps span holds

/-- The property is still in play: the span is found or a graph ahead has it, and with a
target every graph ahead has it. -/
structure Retains (target : Option Span) (sound : Session → Prop) (span : Span)
    (holds : Graph → Prop) (state : Refinement) (parts : List Graph) : Prop where
  session : sound state.session
  built : ∀ graph ∈ state.ahead parts, graph.Built
  unrefuted : state.refuted = false
  reached : span ∈ state.found ∨ ∃ graph ∈ state.ahead parts, holds graph
  focused : target.isSome = true → ∀ graph ∈ state.ahead parts, holds graph

section Retention

variable {target : Option Span} {sound : Session → Prop} {span : Span} {holds : Graph → Prop}
  {state next : Refinement} {part graph : Graph} {parts rest : List Graph}

private theorem ahead_of_ahead_tail (member : graph ∈ state.ahead parts) :
    graph ∈ state.ahead (part :: parts) :=
  (List.mem_append.mp member).elim (List.mem_append_left _)
    fun later => List.mem_append_right _ (.tail _ later)

private theorem Retaining.refine_held (retaining : Retaining target sound span holds)
    (run : PartRun target state part next) (free : CollisionFree next.session.asked)
    (retains : Retains target sound span holds state (part :: parts)) (held : holds part) :
    Retains target sound span holds next parts := by
  have builtPart := retains.built part (by simp)
  have built := run.built retains.built
  have focused : target.isSome = true → ∀ graph ∈ state.ahead parts, holds graph :=
    fun isSome graph member => retains.focused isSome graph (ahead_of_ahead_tail member)
  cases run with
  | refuted refuted =>
      rw [retains.unrefuted] at refuted
      cases refuted
  | skipped _ trivial =>
      rw [retaining.nontrivial builtPart held] at trivial
      cases trivial
  | @ran round session _ _ piece =>
      have later := retaining.session retains.session piece
      have keeps : CollisionFree session.asked → round.Keeps span holds :=
        retaining.round retains.session builtPart held piece
      cases round with
      | converged spans =>
          have member : span ∈ spans := keeps free
          refine ⟨later, built, retains.unrefuted, Or.inl ?_, focused⟩
          exact Std.TreeSet.mem_insertMany_list.mpr (Or.inr (by simpa using member))
      | shrunk left =>
          have kept : holds left := keeps free
          exact ⟨later, built, retains.unrefuted, Or.inr ⟨left, .head _, kept⟩,
            fun isSome => List.forall_mem_cons.mpr ⟨kept, focused isSome⟩⟩
      | unreachable => exact (keeps free).elim

private theorem Retaining.refine_other (retaining : Retaining target sound span holds)
    (run : PartRun target state part next)
    (retains : Retains target sound span holds state (part :: parts)) (other : ¬ holds part) :
    Retains target sound span holds next parts := by
  have built := run.built retains.built
  have noTarget : target.isSome ≠ true :=
    fun isSome => other (retains.focused isSome part (by simp))
  have reached : span ∈ state.found ∨ ∃ graph ∈ state.ahead parts, holds graph := by
    apply retains.reached.imp_right
    rintro ⟨graph, member, held⟩
    refine ⟨graph, ?_, held⟩
    rcases List.mem_append.mp member with pending | among
    · exact List.mem_append_left _ pending
    · rcases List.mem_cons.mp among with rfl | later
      · exact absurd held other
      · exact List.mem_append_right _ later
  cases run with
  | refuted =>
      exact ⟨retains.session, built, retains.unrefuted, reached,
        fun isSome => absurd isSome noTarget⟩
  | skipped =>
      exact ⟨retains.session, built, by simpa using noTarget, reached,
        fun isSome => absurd isSome noTarget⟩
  | @ran round session _ _ piece =>
      have later := retaining.session retains.session piece
      have proper := piece.proper
      cases round with
      | converged spans =>
          refine ⟨later, built, retains.unrefuted, reached.imp_left fun found => ?_,
            fun isSome => absurd isSome noTarget⟩
          exact Std.TreeSet.mem_insertMany_list.mpr (Or.inl found)
      | shrunk left =>
          refine ⟨later, built, retains.unrefuted, reached.imp_right ?_,
            fun isSome => absurd isSome noTarget⟩
          exact fun ⟨graph, member, held⟩ => ⟨graph, .tail _ member, held⟩
      | unreachable => exact absurd proper noTarget

theorem Retaining.invariant (retaining : Retaining target sound span holds) :
    Invariant target (Retains target sound span holds) where
  refine := by
    intro state next part parts run free retains
    by_cases held : holds part
    · exact retaining.refine_held run free retains held
    · exact retaining.refine_other run retains held
  split := by
    intro state graph rest pending retains
    have ahead : ∀ other ∈ graph :: rest, other ∈ state.ahead [] := by
      intro other member
      simpa [ahead, pending] using member
    have here := ahead graph (.head _)
    have relevant := retaining.relevant (retains.built graph here)
    refine ⟨retains.session, ?_, retains.unrefuted, ?_, fun isSome other member => ?_⟩
    · intro other member
      rcases List.mem_append.mp member with later | part
      · exact retains.built other (ahead other (.tail _ later))
      · exact built_relevantParts part
    · apply retains.reached.imp_right
      rintro ⟨other, member, held⟩
      have listed : other ∈ graph :: rest := by simpa [Refinement.ahead, pending] using member
      rcases List.mem_cons.mp listed with rfl | later
      · obtain ⟨part, partMember, partHolds⟩ := (relevant held).1
        exact ⟨part, List.mem_append_right _ partMember, partHolds⟩
      · exact ⟨other, List.mem_append_left _ later, held⟩
    · rcases List.mem_append.mp member with later | part
      · exact retains.focused isSome other (ahead other (.tail _ later))
      · exact (relevant (retains.focused isSome graph here)).2 isSome other part
  miss := by
    intro state graph rest pending isSome none retains
    have here : graph ∈ state.ahead [] := by simp [ahead, pending]
    obtain ⟨⟨part, member, _⟩, _⟩ :=
      retaining.relevant (retains.built graph here) (retains.focused isSome graph here)
    rw [none] at member
    cases member

/-- A span is answered by refinement of a graph that has a property which is kept until
then. -/
theorem Retaining.mem_mutualRefinement (retaining : Retaining target sound span holds)
    {session : Session} (first : sound session) (built : graph.Built) (held : holds graph)
    (free : CollisionFree (session.mutualRefinement graph target).2.asked) :
    span ∈ (session.mutualRefinement graph target).1 := by
  have contains := retaining.contained built held
  unfold Session.mutualRefinement at free ⊢
  rw [if_pos contains] at free ⊢
  let initial : Refinement := { session, pending := [graph] }
  have allBuilt : ∀ pending ∈ initial.pending, pending.Built := by
    intro pending member
    rw [List.mem_singleton.mp member]
    exact built
  have enough : initial.stepsLeft ≤ graph.edgeCount + 2 := by
    simp [initial, stepsLeft]
  have retains : Retains target sound span holds initial [] := by
    refine ⟨first, ?_, rfl, Or.inr ⟨graph, ?_, held⟩, ?_⟩
    · simpa [initial, ahead] using built
    · simp [initial, ahead]
    · simpa [initial, ahead] using fun _ => held
  have last : Retains target sound span holds (run target (graph.edgeCount + 2) initial) [] :=
    retaining.invariant.run free retains
  have settled := @settled_run target _ _ allBuilt enough
  have nothing : (run target (graph.edgeCount + 2) initial).pending = [] :=
    settled.resolve_left (by simp [last.unrefuted])
  have found := last.reached.resolve_right (by
    rintro ⟨holder, member, _⟩
    simp [ahead, nothing] at member)
  change span ∈ answers _
  rw [answers, last.unrefuted]
  exact found

end Retention

end Refinement

end GrammarReach
