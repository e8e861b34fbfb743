import GrammarReach.Bracket.Automaton
import GrammarReach.Proofs.Bracket.PassingBrackets
import GrammarReach.Proofs.Graph.Layered

/-!
# Runs of the taint automaton

Along a word in which its family matches, the taint automaton comes back to the state it
started from or loses count, and it shows the brackets of its family as `normal`.
-/

namespace GrammarReach

namespace BracketAutomaton

/-- The label that the product shows in place of a label. -/
def shown (automaton : BracketAutomaton) (label : Label) : Label :=
  if automaton.family.owns label then normalLabel else label

/-- The copies of an edge in the product. -/
def copies (automaton : BracketAutomaton) (edge : Edge) : List ((Nat × Nat) × Label) :=
  automaton.moves edge.label

theorem product_eq (automaton : BracketAutomaton) (graph : Graph) :
    automaton.product graph = .ofCopies graph automaton.states automaton.copies :=
  rfl

/-- The moves for a bracket of the family, or for any other label. -/
def movesFor (automaton : BracketAutomaton) : Option PassingBracket → List (Nat × Nat)
  | none => automaton.otherMoves
  | some ⟨id, true⟩ => automaton.openMoves id
  | some ⟨id, false⟩ => automaton.closeMoves id

theorem moves_eq (automaton : BracketAutomaton) (label : Label) :
    automaton.moves label = (automaton.movesFor (automaton.family.bracketOf? label)).map
      fun move => (move, automaton.shown label) := by
  unfold moves shown BracketFamily.owns BracketFamily.bracketOf?
  cases BracketLabel.read label with
  | epsilon => rfl
  | normal => rfl
  | other label => rfl
  | opening family id =>
      by_cases own : family = automaton.family
      · simp [BracketLabel.bracket?, own, movesFor]
      · simp [BracketLabel.bracket?, own, movesFor]
  | closing family id =>
      by_cases own : family = automaton.family
      · simp [BracketLabel.bracket?, own, movesFor]
      · simp [BracketLabel.bracket?, own, movesFor]

theorem mem_copies {automaton : BracketAutomaton} {edge : Edge} {copy : (Nat × Nat) × Label} :
    copy ∈ automaton.copies edge ↔
      copy.1 ∈ automaton.movesFor (automaton.family.bracketOf? edge.label) ∧
        copy.2 = automaton.shown edge.label := by
  obtain ⟨move, label⟩ := copy
  rw [copies, moves_eq, List.mem_map]
  constructor
  · rintro ⟨move, isMove, same⟩
    cases same
    exact ⟨isMove, rfl⟩
  · rintro ⟨isMove, rfl⟩
    exact ⟨move, isMove, rfl⟩

section Taint

variable {automaton : BracketAutomaton}

theorem states_of_taint (taint : automaton.analysis = .taint) :
    automaton.states = automaton.ids.length + 2 := by
  simp [states, taint]

theorem overflow_of_taint (taint : automaton.analysis = .taint) :
    automaton.overflow = automaton.ids.length + 1 := by
  simp [overflow, states_of_taint taint]

theorem pending_le (automaton : BracketAutomaton) (id : Nat) :
    automaton.pending id ≤ automaton.ids.length := by
  refine List.foldlRecOn (motive := (· ≤ automaton.ids.length)) _ _ (Nat.zero_le _) ?_
  rintro state small ⟨known, place⟩ member
  simp only
  split
  · have inside := List.snd_lt_add_of_mem_zipIdx member
    rw [Nat.zero_add] at inside
    exact inside
  · exact small

/-! ## Moves -/

theorem mem_openMoves (taint : automaton.analysis = .taint) {id : Nat}
    {move : Nat × Nat} : move ∈ automaton.openMoves id ↔
      (∃ state < automaton.overflow, move = (state + 1, automaton.overflow)) ∨
        move = (0, automaton.pending id) := by
  simp [openMoves, taint, overflow, @eq_comm _ move]

theorem mem_closeMoves (taint : automaton.analysis = .taint) {id : Nat}
    {move : Nat × Nat} : move ∈ automaton.closeMoves id ↔
      move = (automaton.pending id, 0) ∨ move = (automaton.overflow, automaton.overflow) := by
  simp [closeMoves, taint]

theorem mem_otherMoves (taint : automaton.analysis = .taint) {move : Nat × Nat} :
    move ∈ automaton.otherMoves ↔ ∃ state < automaton.states, move = (state, state) := by
  simp [otherMoves, taint, @eq_comm _ move]

private theorem bounded_movesFor_of_taint (taint : automaton.analysis = .taint)
    {bracket : Option PassingBracket} {move : Nat × Nat}
    (isMove : move ∈ automaton.movesFor bracket) :
    move.1 < automaton.states ∧ move.2 < automaton.states := by
  have states := states_of_taint taint
  have overflow := overflow_of_taint taint
  match bracket with
  | none =>
      obtain ⟨state, below, rfl⟩ := (mem_otherMoves taint).mp isMove
      exact ⟨below, below⟩
  | some ⟨id, true⟩ =>
      have small := automaton.pending_le id
      rcases (mem_openMoves taint).mp isMove with ⟨state, below, rfl⟩ | rfl
      · simp only
        omega
      · simp only
        omega
  | some ⟨id, false⟩ =>
      have small := automaton.pending_le id
      rcases (mem_closeMoves taint).mp isMove with rfl | rfl
      · simp only
        omega
      · simp only
        omega

/-- Every copy of an edge is between states of the automaton. -/
theorem bounded_copies (automaton : BracketAutomaton) (edge : Edge)
    (copy : (Nat × Nat) × Label) (member : copy ∈ automaton.copies edge) :
    copy.1.1 < automaton.states ∧ copy.1.2 < automaton.states := by
  have isMove := (mem_copies.mp member).1
  cases analysis : automaton.analysis with
  | taint => exact bounded_movesFor_of_taint analysis isMove
  | valueFlow =>
      have states : automaton.states = 6 := by simp [BracketAutomaton.states, analysis]
      have below : ∀ moves : List (Nat × Nat),
          (∀ move ∈ moves, move.1 < 6 ∧ move.2 < 6) → copy.1 ∈ moves →
          copy.1.1 < automaton.states ∧ copy.1.2 < automaton.states := by
        intro moves small inMoves
        rw [states]
        exact small _ inMoves
      match bracket : automaton.family.bracketOf? edge.label with
      | none =>
          rw [bracket] at isMove
          exact below _ (by simp [movesFor, otherMoves, analysis]) isMove
      | some ⟨id, true⟩ =>
          rw [bracket] at isMove
          exact below _ (by simp [movesFor, openMoves, analysis]) isMove
      | some ⟨id, false⟩ =>
          rw [bracket] at isMove
          exact below _ (by simp [movesFor, closeMoves, analysis]) isMove

theorem states_pos (automaton : BracketAutomaton) : 0 < automaton.states := by
  unfold states
  split
  · decide
  · exact Nat.succ_pos _

theorem shown_eq_epsilon {label : Label} :
    automaton.shown label = Grammar.epsilon ↔ label = Grammar.epsilon := by
  unfold shown
  split
  · rename_i own
    constructor
    · exact fun same => absurd same (by decide)
    · rintro rfl
      simp at own
  · rfl

theorem label_of_copies {edge : Edge} {copy : (Nat × Nat) × Label}
    (member : copy ∈ automaton.copies edge) : copy.2 = automaton.shown edge.label :=
  (mem_copies.mp member).2

theorem word_of_run {first last : Nat} {path : List Edge} {word : List Label}
    (run : LayeredGraph.Run automaton.copies first path word last) :
    word = (wordOf path).map automaton.shown := by
  induction run with
  | nil => rfl
  | cons copy _ induction =>
      rw [wordOf_cons, List.map_cons, ← induction, ← label_of_copies copy]

theorem stays_mem_copies (taint : automaton.analysis = .taint) {edge : Edge}
    (foreign : automaton.family.owns edge.label = false) {state : Nat}
    (below : state < automaton.states) : ((state, state), edge.label) ∈ automaton.copies edge := by
  rw [mem_copies, BracketFamily.bracketOf?_of_foreign foreign]
  exact ⟨(mem_otherMoves taint).mpr ⟨state, below, rfl⟩, by simp [shown, foreign]⟩

private theorem mem_copies_of_open {edge : Edge} {id : Nat} (below : id < Text.halfWordBound)
    (label : edge.label = automaton.family.openLabel id) {move : Nat × Nat}
    (isMove : move ∈ automaton.openMoves id) : (move, normalLabel) ∈ automaton.copies edge := by
  rw [mem_copies, label, BracketFamily.bracketOf?_openLabel below]
  exact ⟨isMove, by simp [shown, BracketFamily.owns_openLabel, below]⟩

private theorem mem_copies_of_close {edge : Edge} {id : Nat} (below : id < Text.halfWordBound)
    (label : edge.label = automaton.family.closeLabel id) {move : Nat × Nat}
    (isMove : move ∈ automaton.closeMoves id) : (move, normalLabel) ∈ automaton.copies edge := by
  rw [mem_copies, label, BracketFamily.bracketOf?_closeLabel below]
  exact ⟨isMove, by simp [shown, BracketFamily.owns_closeLabel, below]⟩

private theorem exists_between (taint : automaton.analysis = .taint) (id : Nat) {state : Nat}
    (below : state < automaton.states) :
    ∃ between < automaton.states, (state, between) ∈ automaton.openMoves id ∧
      ∀ inner, inner = between ∨ inner = automaton.overflow →
        ∃ after, (after = state ∨ after = automaton.overflow) ∧
          (inner, after) ∈ automaton.closeMoves id := by
  have states := states_of_taint taint
  have overflow := overflow_of_taint taint
  have small := automaton.pending_le id
  have lost : (automaton.overflow, automaton.overflow) ∈ automaton.closeMoves id :=
    (mem_closeMoves taint).mpr (.inr rfl)
  cases state with
  | zero =>
      refine ⟨automaton.pending id, by omega, (mem_openMoves taint).mpr (.inr rfl), ?_⟩
      rintro inner (rfl | rfl)
      · exact ⟨0, .inl rfl, (mem_closeMoves taint).mpr (.inl rfl)⟩
      · exact ⟨_, .inr rfl, lost⟩
  | succ state =>
      refine ⟨automaton.overflow, by omega,
        (mem_openMoves taint).mpr (.inl ⟨state, by omega, rfl⟩), ?_⟩
      rintro inner (rfl | rfl)
      · exact ⟨_, .inr rfl, lost⟩
      · exact ⟨_, .inr rfl, lost⟩

/-! ## Runs -/

/-- The automaton runs along every path with a matched word, from any state. -/
theorem exists_run_of_matched (taint : automaton.analysis = .taint) {word : List Label}
    (matched : automaton.family.Matched word) :
    ∀ {path : List Edge}, wordOf path = word → ∀ {state : Nat}, state < automaton.states →
      ∃ last, (last = state ∨ last = automaton.overflow) ∧
        LayeredGraph.Run automaton.copies state path (word.map automaton.shown) last := by
  have lost : automaton.overflow < automaton.states := by
    rw [overflow_of_taint taint, states_of_taint taint]
    omega
  induction matched with
  | nil =>
      intro path spelled state _
      cases List.map_eq_nil_iff.mp spelled
      exact ⟨state, .inl rfl, .nil state⟩
  | @pass label rest foreign _ induction =>
      intro path spelled state below
      obtain ⟨edge, path, rfl, rfl, rfl⟩ := List.map_eq_cons_iff.mp spelled
      obtain ⟨last, ends, run⟩ := induction rfl below
      have shows : automaton.shown edge.label = edge.label := by simp [shown, foreign]
      rw [List.map_cons, shows]
      exact ⟨last, ends, .cons (stays_mem_copies taint foreign below) run⟩
  | @wrap id inner rest small _ _ innerInduction restInduction =>
      intro path spelled state below
      obtain ⟨opened, path, rfl, openedLabel, spelledTail⟩ := List.map_eq_cons_iff.mp spelled
      obtain ⟨innerPath, tail, rfl, innerSpelled, spelledRest⟩ :=
        List.map_eq_append_iff.mp spelledTail
      obtain ⟨closed, restPath, rfl, closedLabel, restSpelled⟩ :=
        List.map_eq_cons_iff.mp spelledRest
      obtain ⟨between, betweenBelow, opens, closes⟩ := exists_between taint id below
      obtain ⟨inside, insideEnds, innerRun⟩ := innerInduction innerSpelled betweenBelow
      obtain ⟨after, afterEnds, close⟩ := closes inside insideEnds
      have afterBelow : after < automaton.states := by
        rcases afterEnds with rfl | rfl
        · exact below
        · exact lost
      obtain ⟨last, lastEnds, restRun⟩ := restInduction restSpelled afterBelow
      have ends : last = state ∨ last = automaton.overflow := by
        rcases lastEnds with rfl | same
        · exact afterEnds
        · exact .inr same
      have showsOpen : automaton.shown (automaton.family.openLabel id) = normalLabel := by
        simp [shown, BracketFamily.owns_openLabel, small]
      have showsClose : automaton.shown (automaton.family.closeLabel id) = normalLabel := by
        simp [shown, BracketFamily.owns_closeLabel, small]
      rw [List.map_cons, List.map_append, List.map_cons, showsOpen, showsClose]
      exact ⟨last, ends, .cons (mem_copies_of_open small openedLabel opens)
        (innerRun.append (.cons (mem_copies_of_close small closedLabel close) restRun))⟩

end Taint

theorem accepts_iff_of_taint {automaton : BracketAutomaton}
    (taint : automaton.analysis = .taint) {state : Nat} :
    accepts automaton.analysis automaton.states state = true ↔
      state = 0 ∨ state = automaton.overflow := by
  rw [taint]
  simp [accepts, overflow]

/-! ## Shown words -/

/-- The other family sees the same brackets in the shown word. -/
theorem matched_shown {automaton : BracketAutomaton} {family : BracketFamily}
    (other : family ≠ automaton.family) {word : List Label} (matched : family.Matched word) :
    family.Matched (word.map automaton.shown) := by
  have kept : ∀ id, automaton.shown (family.openLabel id) = family.openLabel id ∧
      automaton.shown (family.closeLabel id) = family.closeLabel id := by
    intro id
    simp [shown, BracketFamily.owns_openLabel, BracketFamily.owns_closeLabel, other]
  induction matched with
  | nil => exact .nil
  | @pass label rest foreign _ induction =>
      refine .pass ?_ induction
      unfold shown
      split
      · exact BracketFamily.owns_normalLabel family
      · exact foreign
  | @wrap id inner rest below _ _ innerInduction restInduction =>
      rw [List.map_cons, List.map_append, List.map_cons, (kept id).1, (kept id).2]
      exact .wrap below innerInduction restInduction

end BracketAutomaton

end GrammarReach
