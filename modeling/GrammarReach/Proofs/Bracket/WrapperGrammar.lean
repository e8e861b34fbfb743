import GrammarReach.Proofs.Bracket.MatchingGrammars

/-!
# The wrapper grammar

The wrapper grammar derives the walks that start with the opening and end with the
closing wrapper bracket, whatever known labels stand between.
-/

namespace GrammarReach

namespace BracketLanguage

/-- The opening label of the wrapper. -/
abbrev wrapperOpen : Label := BracketFamily.bracket.openLabel wrapperId

/-- The closing label of the wrapper. -/
abbrev wrapperClose : Label := BracketFamily.bracket.closeLabel wrapperId

/-- The word starts with the opening and ends with the closing wrapper bracket. -/
def Wrapped (word : List Label) : Prop :=
  ∃ inner, word = wrapperOpen :: (inner ++ [wrapperClose])

/-- A walk spells a wrapped word exactly if its first and its last edge are the wrapper
brackets. -/
theorem wrapped_wordOf_iff {path : List Edge} :
    Wrapped (wordOf path) ↔ ∃ (opened closed : Edge) (inner : List Edge),
      path = opened :: (inner ++ [closed]) ∧
        opened.label = wrapperOpen ∧ closed.label = wrapperClose := by
  constructor
  · rintro ⟨word, spelled⟩
    obtain ⟨opened, tail, rfl, isOpened, spelledTail⟩ := List.map_eq_cons_iff.mp spelled
    obtain ⟨inner, last, rfl, _, spelledLast⟩ := List.map_eq_append_iff.mp spelledTail
    obtain ⟨closed, rest, rfl, isClosed, spelledRest⟩ := List.map_eq_cons_iff.mp spelledLast
    rw [List.map_eq_nil_iff] at spelledRest
    subst spelledRest
    exact ⟨opened, closed, inner, rfl, isOpened, isClosed⟩
  · rintro ⟨opened, closed, inner, rfl, isOpened, isClosed⟩
    refine ⟨wordOf inner, ?_⟩
    rw [← isOpened, ← isClosed]
    simp

section Wrapper

variable (ids : BracketIds)

/-- The rule that puts the closing bracket behind flat words. -/
private def closingRule : ExtensionRule :=
  ⟨closedName, flatName, wrapperClose, 0, 1⟩

/-- The rule that puts the opening bracket in front of closed words. -/
private def openingRule : ExtensionRule :=
  ⟨Grammar.startName, closedName, wrapperOpen, 0, 1⟩

private theorem wrapper_eq :
    wrapper ids =
      { basic := [⟨flatName, Grammar.epsilon⟩, ⟨flatName, normalLabel⟩] ++
          ((letters flatName .parenthesis ids.parenthesis).basic ++
            ((letters flatName .bracket ids.bracket).basic ++ []))
        prepend := [openingRule]
        append := [closingRule]
        concatenate := [sequenceRule flatName flatName flatName] } := rfl

private theorem mem_letters {name : Nonterminal} {family : BracketFamily} {known : List Nat}
    {rule : BasicRule} :
    rule ∈ (letters name family known).basic ↔ ∃ id ∈ known,
      rule = ⟨name, family.openLabel id⟩ ∨ rule = ⟨name, family.closeLabel id⟩ := by
  simp [letters]

private theorem mem_basic_wrapper {rule : BasicRule} :
    rule ∈ (wrapper ids).basic ↔
      rule.head = flatName ∧ (ids.Covers rule.label ∨ rule.label = Grammar.epsilon) := by
  obtain ⟨head, label⟩ := rule
  simp only [wrapper_eq, List.mem_append, List.mem_cons, mem_letters, List.not_mem_nil,
    or_false, BasicRule.mk.injEq]
  constructor
  · rintro ((⟨rfl, rfl⟩ | ⟨rfl, rfl⟩) | ⟨id, known, same⟩ | ⟨id, known, same⟩)
    · exact ⟨rfl, Or.inr rfl⟩
    · exact ⟨rfl, Or.inl (Or.inl rfl)⟩
    · rcases same with ⟨rfl, role⟩ | ⟨rfl, role⟩
      · exact ⟨rfl, Or.inl (Or.inr ⟨.parenthesis, id, known, Or.inl role⟩)⟩
      · exact ⟨rfl, Or.inl (Or.inr ⟨.parenthesis, id, known, Or.inr role⟩)⟩
    · rcases same with ⟨rfl, role⟩ | ⟨rfl, role⟩
      · exact ⟨rfl, Or.inl (Or.inr ⟨.bracket, id, known, Or.inl role⟩)⟩
      · exact ⟨rfl, Or.inl (Or.inr ⟨.bracket, id, known, Or.inr role⟩)⟩
  · rintro ⟨rfl, (neutral | ⟨family, id, known, role⟩) | epsilon⟩
    · exact Or.inl (Or.inr ⟨rfl, neutral⟩)
    · cases family with
      | parenthesis => exact Or.inr (Or.inl ⟨id, known, role.imp (⟨rfl, ·⟩) (⟨rfl, ·⟩)⟩)
      | bracket => exact Or.inr (Or.inr ⟨id, known, role.imp (⟨rfl, ·⟩) (⟨rfl, ·⟩)⟩)
    · exact Or.inl (Or.inl ⟨rfl, epsilon⟩)

/-- The wrapper grammar is a bracket grammar that matches nothing. -/
theorem wordGrammar_wrapper : WordGrammar (wrapper ids) fun _ _ => False := by
  have flat : IsWordName flatName := by decide
  have closed : IsWordName closedName := by decide
  refine ⟨?_, by simp [wrapper_eq], ?_, ?_, ?_⟩
  · intro rule member
    rw [((mem_basic_wrapper ids).mp member).1]
    exact Or.inl flat
  · intro rule member
    cases List.mem_singleton.mp member
    exact ⟨isWordName_startName, closed, rfl⟩
  · intro rule member
    cases List.mem_singleton.mp member
    exact ⟨closed, flat, rfl⟩
  · intro rule member
    cases List.mem_singleton.mp member
    exact .sequence flat flat flat

/-- The shapes of the words of the wrapper grammar, which consist of canonical labels
and epsilon. -/
private structure WrapperWord (name : Nonterminal) (word : List Label) : Prop where
  known : ∀ label ∈ word, CanonicalLabel label ∨ label = Grammar.epsilon
  closed : name = closedName → ∃ inner, word = inner ++ [wrapperClose]
  start : name = Grammar.startName → Wrapped word

private theorem WrapperWord.flat {word : List Label}
    (known : ∀ label ∈ word, CanonicalLabel label ∨ label = Grammar.epsilon) :
    WrapperWord flatName word :=
  ⟨known, fun same => absurd same (by decide), fun same => absurd same (by decide)⟩

private theorem respects_wrapper (bounded : ids.Bounded) :
    Respects (wrapper ids) (fun _ _ => False) WrapperWord where
  letter rule member _ := by
    obtain ⟨flat, letter⟩ := (mem_basic_wrapper ids).mp member
    rw [flat]
    refine .flat fun label inWord => ?_
    rw [List.mem_singleton] at inWord
    exact inWord ▸ letter.imp_left fun covers => covers.canonical bounded
  sequence member _ _ before behind := by
    cases List.mem_singleton.mp member
    exact .flat fun label inWord =>
      (List.mem_append.mp inWord).elim (before.known label) (behind.known label)
  wrap _ _ _ isMatched := isMatched.elim
  rename member _ _ := by
    cases List.mem_singleton.mp member
  prepend rule member word closed := by
    cases List.mem_singleton.mp member
    refine ⟨?_, fun same => absurd same (by decide), fun _ => ?_⟩
    · exact List.forall_mem_cons.mpr ⟨Or.inl (.opening .bracket (by decide)), closed.known⟩
    · obtain ⟨inner, rfl⟩ := closed.closed rfl
      exact ⟨inner, rfl⟩
  append rule member word flat := by
    cases List.mem_singleton.mp member
    refine ⟨fun label inWord => ?_, fun _ => ⟨word, rfl⟩, fun same => absurd same (by decide)⟩
    rcases List.mem_append.mp inWord with inside | last
    · exact flat.known label inside
    · rw [List.mem_singleton] at last
      exact Or.inl (last ▸ .closing .bracket (by decide))

/-- Behind every answer of the wrapper grammar is a wrapped walk over canonical labels
and epsilon. -/
theorem walk_of_derives_wrapper (bounded : ids.Bounded) {graph : Graph} {span : Span}
    {used : List Edge}
    (derives : (wrapper ids).Derives graph Grammar.startName [span] used) :
    ∃ path, Joins span.start path span.stop ∧ (∀ edge ∈ path, edge ∈ graph.edges) ∧
      (∀ label ∈ wordOf path, CanonicalLabel label ∨ label = Grammar.epsilon) ∧
      Wrapped (wordOf path) := by
  obtain ⟨path, joins, inside, _, word⟩ :=
    wordWalk_of_derives (wordGrammar_wrapper ids) (respects_wrapper ids bounded)
      isWordName_startName derives
  exact ⟨path, joins, inside, word.known, word.start rfl⟩

private theorem derives_flat {graph : Graph} (built : graph.Built) {start stop : Vertex}
    {path : List Edge} (joins : Joins start path stop)
    (inside : ∀ edge ∈ path, edge ∈ graph.edges) (member : start ∈ graph.vertices)
    (covered : ∀ label ∈ wordOf path, ids.Covers label ∨ label = Grammar.epsilon) :
    ∃ used, (wrapper ids).Derives graph flatName [⟨start, stop⟩] used := by
  induction path generalizing start with
  | nil =>
      cases joins
      have letter : (⟨flatName, Grammar.epsilon⟩ : BasicRule) ∈ (wrapper ids).basic :=
        (mem_basic_wrapper ids).mpr ⟨rfl, Or.inr rfl⟩
      exact ⟨_, .basic letter (built.closed.loop_mem _ member) rfl⟩
  | cons edge path induction =>
      obtain ⟨rfl, restJoins⟩ := joins
      have edgeMember := inside edge (by simp)
      obtain ⟨used, rest⟩ := induction restJoins
        (fun other later => inside other (by simp [later]))
        (built.closed.target_mem edge edgeMember)
        (fun label later => covered label (by simp [later]))
      have letter : (⟨flatName, edge.label⟩ : BasicRule) ∈ (wrapper ids).basic :=
        (mem_basic_wrapper ids).mpr ⟨rfl, covered edge.label (by simp)⟩
      have sequenced : sequenceRule flatName flatName flatName ∈ (wrapper ids).concatenate :=
        List.mem_singleton.mpr rfl
      exact ⟨_, derives_sequence sequenced (.basic letter edgeMember rfl) rest⟩

/-- The wrapper grammar derives every wrapped walk over known labels and epsilon. -/
theorem derives_wrapper {graph : Graph} (built : graph.Built) {start stop : Vertex}
    {path : List Edge} (joins : Joins start path stop)
    (inside : ∀ edge ∈ path, edge ∈ graph.edges)
    (covered : ∀ label ∈ wordOf path, ids.Covers label ∨ label = Grammar.epsilon)
    (wrapped : Wrapped (wordOf path)) :
    ∃ used, (wrapper ids).Derives graph Grammar.startName [⟨start, stop⟩] used := by
  obtain ⟨opened, closed, middle, rfl, openedLabel, closedLabel⟩ := wrapped_wordOf_iff.mp wrapped
  obtain ⟨rfl, tailJoins⟩ := joins
  obtain ⟨middleStop, middleJoins, rfl, rfl⟩ := Joins.append_iff.mp tailJoins
  have openedMember := inside opened (by simp)
  have closedMember := inside closed (by simp)
  obtain ⟨used, flat⟩ := derives_flat ids built middleJoins
    (fun edge member => inside edge (by simp [member]))
    (built.closed.target_mem opened openedMember)
    (fun label member => covered label (by simp [member]))
  have closedEdge : (⟨closed.source, closed.target, wrapperClose⟩ : Edge) ∈ graph.edges := by
    rw [← closedLabel]
    exact closedMember
  have openedEdge : (⟨opened.source, opened.target, wrapperOpen⟩ : Edge) ∈ graph.edges := by
    rw [← openedLabel]
    exact openedMember
  have closing : closingRule ∈ (wrapper ids).append := List.mem_singleton.mpr rfl
  have opening : openingRule ∈ (wrapper ids).prepend := List.mem_singleton.mpr rfl
  have closedDerives :=
    Grammar.Derives.append closing flat rfl closedEdge (graph.follows_single _)
  have openedDerives :=
    Grammar.Derives.prepend opening closedDerives rfl openedEdge (graph.follows_single _)
  exact ⟨_, openedDerives⟩

end Wrapper

end BracketLanguage

end GrammarReach
