import GrammarReach.Proofs.Grammar.ClauseShapes
import GrammarReach.Proofs.Grammar.ClauseTexts

/-!
# What a clause says

Each argument of a head says how a segment is made: a variable stands for the body segment
that it names, a variable of an empty word for nothing and any other token for one edge.
A rule that was read from a clause makes its segments that way, unless the clause puts the
segments of its only body into another order or decorates them.
-/

namespace GrammarReach

/-- One place in the making of a segment: a segment of a body, or an edge with a label. -/
inductive Symbol where
  | segment (reference : SegmentRef)
  | edge (label : Label)
deriving DecidableEq, Repr

namespace Symbol

/-- The segments of the only body as they are. -/
def untouched (arity : Nat) : List (List Symbol) :=
  (List.range arity).map fun segment => [.segment ⟨0, segment⟩]

@[simp] theorem length_untouched (arity : Nat) : (untouched arity).length = arity := by
  simp [untouched]

theorem getElem?_untouched {arity segment : Nat} (inside : segment < arity) :
    (untouched arity)[segment]? = some [.segment ⟨0, segment⟩] := by
  simp [untouched, inside]

end Symbol

/-- The segments of the head of a rule, each as it is made. -/
def Rule.segments : Rule → List (List Symbol)
  | .basic rule => [[.edge rule.label]]
  | .prepend rule => (Symbol.untouched rule.arity).modify rule.index (.edge rule.label :: ·)
  | .append rule => (Symbol.untouched rule.arity).modify rule.index (· ++ [.edge rule.label])
  | .insert rule => (Symbol.untouched rule.bodyArity).insertIdx rule.index [.edge rule.label]
  | .concatenate rule => rule.wiring.map (·.map .segment)

namespace AtomClause

/-- The tokens of a head argument say how a segment is made. -/
inductive Spells (clause : AtomClause) : List String → List Symbol → Prop where
  | nil : Spells clause [] []
  | empty {token : String} {tokens : List String} {symbols : List Symbol} :
      token ∈ emptyVariables clause.bodies → Spells clause tokens symbols →
      Spells clause (token :: tokens) symbols
  | segment {token : String} {tokens : List String} {symbols : List Symbol}
      {reference : SegmentRef} :
      token ∉ emptyVariables clause.bodies →
      Names (properBodies clause.bodies) token reference → Spells clause tokens symbols →
      Spells clause (token :: tokens) (.segment reference :: symbols)
  | edge {token : String} {tokens : List String} {symbols : List Symbol} :
      (∀ body ∈ clause.bodies, token ∉ body.tokens) → Spells clause tokens symbols →
      Spells clause (token :: tokens) (.edge (labelOf token) :: symbols)

/-- The clause says that the segments of its head are made like this. -/
def Means (clause : AtomClause) (segments : List (List Symbol)) : Prop :=
  List.Forall₂ clause.Spells clause.head.arguments segments

/-- The arguments are the single variables of a body, in their order. -/
structure Repeats (arguments : List (List String)) (body : Atom) : Prop where
  proper : body.name ≠ Grammar.emptyWordName
  single : ∀ argument ∈ body.arguments, argument.length = 1
  same : arguments = body.arguments

/-- Without the label that the rule brings in, the head repeats the only body.  Nothing is
asked of clauses that bring in no label beside a segment. -/
def InOrder (clause : AtomClause) : Rule → Prop
  | .basic _ => True
  | .prepend rule => ∃ body, clause.bodies = [body] ∧
      Repeats (clause.head.arguments.modify rule.index List.tail) body
  | .append rule => ∃ body, clause.bodies = [body] ∧
      Repeats (clause.head.arguments.modify rule.index List.dropLast) body
  | .insert rule => ∃ body, clause.bodies = [body] ∧
      Repeats (clause.head.arguments.eraseIdx rule.index) body
  | .concatenate _ => True

/-! ## Related lists -/

section Related

variable {α β : Type} {related : α → β → Prop} {items : List α} {images : List β}

private theorem forall₂_modify_iff {index : Nat} {change : β → β} {undo : α → α}
    (here : ∀ item image, items[index]? = some item → images[index]? = some image →
      (related item (change image) ↔ related (undo item) image)) :
    List.Forall₂ related items (images.modify index change) ↔
      List.Forall₂ related (items.modify index undo) images := by
  induction items generalizing images index with
  | nil => simp [List.forall₂_nil_left_iff]
  | cons item items induction =>
      cases images with
      | nil => simp [List.forall₂_nil_right_iff]
      | cons image images =>
          cases index with
          | zero => simp [here item image rfl rfl]
          | succ index =>
              have rest : List.Forall₂ related items (images.modify index change) ↔
                  List.Forall₂ related (items.modify index undo) images := by
                apply induction
                intro other otherImage found imageFound
                exact here other otherImage (by simpa using found) (by simpa using imageFound)
              simp [rest]

theorem forall₂_insertIdx_iff {index : Nat} {image : β}
    (inside : index ≤ images.length) :
    List.Forall₂ related items (images.insertIdx index image) ↔
      (∃ item, items[index]? = some item ∧ related item image) ∧
        List.Forall₂ related (items.eraseIdx index) images := by
  induction index generalizing items images with
  | zero =>
      cases items with
      | nil => simp
      | cons item items => simp
  | succ index induction =>
      cases images with
      | nil => simp at inside
      | cons first images =>
          cases items with
          | nil => simp
          | cons item items =>
              have rest : List.Forall₂ related items (images.insertIdx index image) ↔
                  (∃ item, items[index]? = some item ∧ related item image) ∧
                    List.Forall₂ related (items.eraseIdx index) images :=
                induction (by simpa using inside)
              simp only [List.insertIdx_succ_cons, List.forall₂_cons, rest,
                List.getElem?_cons_succ, List.eraseIdx_cons_succ]
              tauto

end Related

/-! ## Clauses with one body -/

section Unary

variable {head body : Atom} {tokens : List String}

private theorem properBodies_single (proper : body.name ≠ Grammar.emptyWordName) :
    properBodies [body] = [body] := by
  simp [properBodies, proper]

private theorem emptyVariables_single (proper : body.name ≠ Grammar.emptyWordName) :
    emptyVariables [body] = [] := by
  simp [emptyVariables, proper]

private theorem proper_of_names {token : String} {reference : SegmentRef}
    (names : Names (properBodies [body]) token reference) :
    body.name ≠ Grammar.emptyWordName := by
  rintro empty
  obtain ⟨atom, found, _⟩ := names
  simp [properBodies, empty] at found

private theorem names_single_iff (proper : body.name ≠ Grammar.emptyWordName) {token : String}
    {segment : Nat} :
    Names (properBodies [body]) token ⟨0, segment⟩ ↔
      body.arguments[segment]? = some [token] := by
  rw [properBodies_single proper]
  constructor
  · rintro ⟨atom, found, atSegment⟩
    cases found
    exact atSegment
  · exact fun atSegment => ⟨body, rfl, atSegment⟩

private theorem spells_nil_iff (proper : body.name ≠ Grammar.emptyWordName) :
    Spells ⟨head, [body]⟩ tokens [] ↔ tokens = [] := by
  constructor
  · intro spells
    cases spells with
    | nil => rfl
    | empty isEmpty _ =>
        rw [emptyVariables_single proper] at isEmpty
        cases isEmpty
  · rintro rfl
    exact .nil

private theorem spells_segment_iff (proper : body.name ≠ Grammar.emptyWordName)
    {segment : Nat} {symbols : List Symbol} :
    Spells ⟨head, [body]⟩ tokens (.segment ⟨0, segment⟩ :: symbols) ↔
      ∃ token rest, tokens = token :: rest ∧ body.arguments[segment]? = some [token] ∧
        Spells ⟨head, [body]⟩ rest symbols := by
  constructor
  · intro spells
    cases spells with
    | empty isEmpty _ =>
        rw [emptyVariables_single proper] at isEmpty
        cases isEmpty
    | segment _ names rest => exact ⟨_, _, rfl, (names_single_iff proper).mp names, rest⟩
  · rintro ⟨token, rest, rfl, atSegment, spells⟩
    apply Spells.segment _ ((names_single_iff proper).mpr atSegment) spells
    rw [emptyVariables_single proper]
    exact List.not_mem_nil

private theorem means_untouched_iff (proper : body.name ≠ Grammar.emptyWordName)
    {arguments : List (List String)} :
    List.Forall₂ (Spells ⟨head, [body]⟩) arguments (Symbol.untouched body.arguments.length) ↔
      Repeats arguments body := by
  have spells : ∀ {tokens : List String} {segment : Nat},
      Spells ⟨head, [body]⟩ tokens [.segment ⟨0, segment⟩] ↔
        ∃ token, tokens = [token] ∧ body.arguments[segment]? = some [token] := by
    intro tokens segment
    simp only [spells_segment_iff proper, spells_nil_iff proper]
    constructor
    · rintro ⟨token, rest, rfl, atSegment, rfl⟩
      exact ⟨token, rfl, atSegment⟩
    · rintro ⟨token, rfl, atSegment⟩
      exact ⟨token, [], rfl, atSegment, rfl⟩
  constructor
  · intro means
    have lengths : arguments.length = body.arguments.length := by
      simpa using means.length_eq
    have places : ∀ segment (inside : segment < arguments.length), ∃ token,
        arguments[segment] = [token] ∧ body.arguments[segment]? = some [token] := by
      intro segment inside
      have related := (List.forall₂_iff_get.mp means).2 segment inside (by simpa [← lengths])
      simpa [Symbol.untouched, spells] using related
    refine ⟨proper, ?_, ?_⟩
    · intro argument member
      obtain ⟨segment, inside, rfl⟩ := List.mem_iff_getElem.mp member
      obtain ⟨token, _, atSegment⟩ := places segment (by omega)
      rw [List.getElem?_eq_getElem inside] at atSegment
      rw [Option.some.inj atSegment]
      rfl
    · apply List.ext_getElem lengths
      intro segment inside bodyInside
      obtain ⟨token, here, atSegment⟩ := places segment inside
      rw [List.getElem?_eq_getElem bodyInside] at atSegment
      rw [here, Option.some.inj atSegment]
  · rintro ⟨_, single, rfl⟩
    apply List.forall₂_iff_get.mpr
    refine ⟨by simp, fun segment inside _ => ?_⟩
    obtain ⟨token, only⟩ := List.length_eq_one_iff.mp (single _ (List.getElem_mem inside))
    have found : body.arguments[segment]? = some [token] := by
      rw [List.getElem?_eq_getElem inside, only]
    simpa [Symbol.untouched, spells, only] using found

private theorem spells_edge {token : String} (terminal : token ∉ body.tokens)
    {symbols : List Symbol} (spells : Spells ⟨head, [body]⟩ tokens symbols) :
    Spells ⟨head, [body]⟩ (token :: tokens) (.edge (labelOf token) :: symbols) := by
  apply Spells.edge _ spells
  intro other member
  cases List.mem_singleton.mp member
  exact terminal

private theorem spells_edge_iff (proper : body.name ≠ Grammar.emptyWordName) {token : String}
    (terminal : token ∉ body.tokens) {symbols : List Symbol} :
    Spells ⟨head, [body]⟩ (token :: tokens) (.edge (labelOf token) :: symbols) ↔
      Spells ⟨head, [body]⟩ tokens symbols := by
  constructor
  · intro spells
    generalize label : labelOf token = shown at spells
    cases spells with
    | empty isEmpty _ =>
        rw [emptyVariables_single proper] at isEmpty
        cases isEmpty
    | edge _ rest => exact rest
  · exact spells_edge terminal

private theorem spells_append_edge_iff (proper : body.name ≠ Grammar.emptyWordName)
    {bound terminal : String} (isTerminal : terminal ∉ body.tokens) {segment : Nat} :
    Spells ⟨head, [body]⟩ [bound, terminal]
        [.segment ⟨0, segment⟩, .edge (labelOf terminal)] ↔
      Spells ⟨head, [body]⟩ [bound] [.segment ⟨0, segment⟩] := by
  rw [spells_segment_iff proper, spells_segment_iff proper]
  constructor
  · rintro ⟨token, rest, same, atSegment, _⟩
    cases same
    exact ⟨bound, [], rfl, atSegment, .nil⟩
  · rintro ⟨token, rest, same, atSegment, _⟩
    cases same
    exact ⟨bound, [terminal], rfl, atSegment, spells_edge isTerminal .nil⟩

private theorem names_of_spells {clause : AtomClause} {symbols : List Symbol}
    (spells : clause.Spells tokens symbols) {reference : SegmentRef}
    (member : .segment reference ∈ symbols) :
    ∃ token, Names (properBodies clause.bodies) token reference := by
  induction spells with
  | nil => cases member
  | empty _ _ induction => exact induction member
  | @segment token tokens symbols _ _ names _ induction =>
      rcases List.mem_cons.mp member with same | later
      · cases same
        exact ⟨token, names⟩
      · exact induction later
  | edge _ _ induction =>
      rcases List.mem_cons.mp member with same | later
      · cases same
      · exact induction later

private theorem proper_of_means {segments : List (List Symbol)}
    (means : Means ⟨head, [body]⟩ segments) {symbols : List Symbol} {reference : SegmentRef}
    (inSegments : symbols ∈ segments) (member : .segment reference ∈ symbols) :
    body.name ≠ Grammar.emptyWordName := by
  obtain ⟨index, inside, rfl⟩ := List.mem_iff_getElem.mp inSegments
  have spells := (List.forall₂_iff_get.mp means).2 index (means.length_eq ▸ inside) inside
  obtain ⟨token, names⟩ := names_of_spells spells member
  exact proper_of_names names

section Modified

variable {index : Nat} {change : List Symbol → List Symbol}
  {undo : List String → List String} {extended : List String}

private theorem means_modify_iff
    (same : head.arguments.length = body.arguments.length)
    (found : head.arguments[index]? = some extended)
    (keeps : ∀ symbol symbols, symbol ∈ symbols → symbol ∈ change symbols)
    (undoes : body.name ≠ Grammar.emptyWordName →
      (Spells ⟨head, [body]⟩ extended (change [.segment ⟨0, index⟩]) ↔
        Spells ⟨head, [body]⟩ (undo extended) [.segment ⟨0, index⟩])) :
    Means ⟨head, [body]⟩ ((Symbol.untouched body.arguments.length).modify index change) ↔
      Repeats (head.arguments.modify index undo) body := by
  have inside : index < body.arguments.length :=
    same ▸ (List.getElem?_eq_some_iff.mp found).1
  have here (proper : body.name ≠ Grammar.emptyWordName) :
      Means ⟨head, [body]⟩ ((Symbol.untouched body.arguments.length).modify index change) ↔
        Repeats (head.arguments.modify index undo) body := by
    rw [← means_untouched_iff proper, Means]
    apply forall₂_modify_iff
    intro item image itemFound imageFound
    rw [found] at itemFound
    rw [Symbol.getElem?_untouched inside] at imageFound
    cases itemFound
    cases imageFound
    exact undoes proper
  constructor
  · intro means
    apply (here _).mp means
    apply proper_of_means means
    · apply List.mem_of_getElem? (i := index)
      rw [List.getElem?_modify_eq, Symbol.getElem?_untouched inside]
      rfl
    · exact keeps _ _ (List.mem_singleton.mpr rfl)
  · intro repeats
    exact (here repeats.proper).mpr repeats

end Modified

private theorem means_insertIdx_iff {index : Nat} {terminal : String}
    (some : body.arguments ≠ [])
    (longer : head.arguments.length = body.arguments.length + 1)
    (found : head.arguments[index]? = .some [terminal]) (isTerminal : terminal ∉ body.tokens) :
    Means ⟨head, [body]⟩
        ((Symbol.untouched body.arguments.length).insertIdx index [.edge (labelOf terminal)]) ↔
      Repeats (head.arguments.eraseIdx index) body := by
  have inside : index ≤ (Symbol.untouched body.arguments.length).length := by
    have below := (List.getElem?_eq_some_iff.mp found).1
    rw [Symbol.length_untouched]
    omega
  have here (proper : body.name ≠ Grammar.emptyWordName) :
      Means ⟨head, [body]⟩ ((Symbol.untouched body.arguments.length).insertIdx index
          [.edge (labelOf terminal)]) ↔
        Repeats (head.arguments.eraseIdx index) body := by
    have label : ∃ tokens, head.arguments[index]? = .some tokens ∧
        Spells ⟨head, [body]⟩ tokens [.edge (labelOf terminal)] :=
      ⟨[terminal], found, spells_edge isTerminal .nil⟩
    rw [← means_untouched_iff proper, Means, forall₂_insertIdx_iff inside]
    exact and_iff_right label
  constructor
  · intro means
    apply (here _).mp means
    have first : [Symbol.segment ⟨0, 0⟩] ∈ Symbol.untouched body.arguments.length :=
      List.mem_of_getElem? (Symbol.getElem?_untouched (List.length_pos_of_ne_nil some))
    apply proper_of_means means
    · exact (List.mem_insertIdx inside).mpr (.inr first)
    · exact List.mem_singleton.mpr rfl
  · intro repeats
    exact (here repeats.proper).mpr repeats

end Unary

/-! ## What rules make -/

section Rules

variable {clause : AtomClause}

private theorem spells_of_wires {tokens : List String} {chain : List SegmentRef}
    (single : ∀ atom ∈ properBodies clause.bodies, ∀ argument ∈ atom.arguments,
      argument.length = 1)
    (located : List.Forall₂
      (fun token reference => locate (properBodies clause.bodies) token = some reference)
      (tokens.filter fun token => !(emptyVariables clause.bodies).contains token) chain) :
    clause.Spells tokens (chain.map .segment) := by
  induction tokens generalizing chain with
  | nil =>
      cases located
      exact .nil
  | cons token tokens induction =>
      by_cases isEmpty : token ∈ emptyVariables clause.bodies
      · rw [List.filter_cons_of_neg (by simpa using isEmpty)] at located
        exact .empty isEmpty (induction located)
      · rw [List.filter_cons_of_pos (by simpa using isEmpty)] at located
        cases located with
        | cons first rest =>
            exact .segment isEmpty (names_of_locate single first) (induction rest)

/-- A rule makes its segments as its clause says exactly if the clause keeps the order of
its only body where it brings in a label. -/
theorem Shape.means_iff (arguments : ∀ body ∈ clause.bodies, body.arguments ≠ [])
    {rule : Rule} (shape : clause.Shape rule) :
    clause.Means rule.segments ↔ clause.InOrder rule := by
  obtain ⟨head, bodies⟩ := clause
  cases shape with
  | @basic token none single =>
      cases none
      refine iff_of_true ?_ trivial
      change List.Forall₂ _ head.arguments _
      change head.arguments = _ at single
      rw [single]
      exact .cons (.edge (by simp) .nil) .nil
  | @append body index bound terminal only same onlyAt isBound isTerminal =>
      cases only
      have means := @means_modify_iff head body index
        (· ++ [.edge (labelOf terminal)]) List.dropLast [bound, terminal] same onlyAt.found
        (fun symbol symbols member => List.mem_append_left _ member) fun proper =>
          spells_append_edge_iff proper isTerminal
      simpa [InOrder, Rule.segments] using means
  | @prepend body index bound terminal only same onlyAt isBound isTerminal =>
      cases only
      have means := @means_modify_iff head body index
        (.edge (labelOf terminal) :: ·) List.tail [terminal, bound] same onlyAt.found
        (fun symbol symbols member => List.mem_cons_of_mem _ member) fun proper =>
          spells_edge_iff proper isTerminal
      simpa [InOrder, Rule.segments] using means
  | @insert body index terminal only longer onlyAt =>
      cases only
      have means := means_insertIdx_iff (arguments body (by simp)) longer onlyAt.found
        (by simpa [isIntroduced] using onlyAt.isKind)
      simpa [InOrder, Rule.segments] using means
  | @concatenate rule concatenates few =>
      refine iff_of_true ?_ trivial
      rw [Means, Rule.segments, List.forall₂_map_right_iff]
      exact concatenates.wired.imp fun tokens chain wires =>
        spells_of_wires concatenates.single wires.2

end Rules

end AtomClause

end GrammarReach
