import GrammarReach.Proofs.Bracket.ParityAnswers
import GrammarReach.Proofs.Bracket.SilentWords
import GrammarReach.Proofs.Saturation.RecordedOrigins

/-!
# Edges on accepted walks

The balanced, the parity and the interleaved grammars are silent, whatever ids they are
given.  So what supports some targets are exactly the labelled edges on accepted walks
between the ends of one of them.
-/

namespace GrammarReach

namespace BracketLanguage

/-! ## What the building blocks build -/

/-- The grammar knows the opening bracket of each pair, only names of the given kind have
letters and wrapped words, and only names for use are the words of bodies. -/
structure Builds (grammar : Grammar) (kind used : Nonterminal → Prop) : Prop where
  opens : ∀ family id, pairRule family id ∈ grammar.insert →
    openerRule family id ∈ grammar.basic
  letters : ∀ rule ∈ grammar.basic, IsWordName rule.head → kind rule.head
  wraps : ∀ {name inner family}, wrapRule name inner family ∈ grammar.concatenate → kind name
  bodies : ∀ rule ∈ grammar.concatenate, ∀ body ∈ rule.bodies, IsWordName body → used body

section Blocks

variable {kind used : Nonterminal → Prop} {name left right inner source : Nonterminal}

theorem builds_unions {grammars : List Grammar}
    (each : ∀ grammar ∈ grammars, Builds grammar kind used) :
    Builds (unions grammars) kind used := by
  constructor
  · intro family id member
    obtain ⟨grammar, among, inside⟩ := mem_insert_unions.mp member
    exact mem_basic_unions.mpr ⟨grammar, among, (each grammar among).opens family id inside⟩
  · intro rule member word
    obtain ⟨grammar, among, inside⟩ := mem_basic_unions.mp member
    exact (each grammar among).letters rule inside word
  · intro name inner family member
    obtain ⟨grammar, among, inside⟩ := mem_concatenate_unions.mp member
    exact (each grammar among).wraps inside
  · intro rule member body inBodies word
    obtain ⟨grammar, among, inside⟩ := mem_concatenate_unions.mp member
    exact (each grammar among).bodies rule inside body inBodies word

theorem builds_matchedPairs (owner : BracketFamily) (known : List Nat) :
    Builds (matchedPairs owner known) kind used := by
  refine ⟨?_, ?_, by simp [matchedPairs], by simp [matchedPairs]⟩
  · intro family id member
    obtain ⟨other, isKnown, same⟩ := List.mem_map.mp member
    cases pairName_injective (congrArg InsertionRule.head same)
    obtain ⟨_, rfl⟩ := openerName_injective (congrArg InsertionRule.body same)
    exact mem_basic_matchedPairs isKnown
  · intro rule member word
    obtain ⟨id, _, rfl⟩ := List.mem_map.mp member
    exact absurd word (not_isWordName_openerName owner id)

private theorem builds_of_letters {rules : List BasicRule}
    (heads : ∀ rule ∈ rules, kind rule.head) : Builds { basic := rules } kind used :=
  ⟨by simp, fun rule member _ => heads rule member, by simp, by simp⟩

theorem builds_letters (head : kind name) (owner : BracketFamily) (known : List Nat) :
    Builds (letters name owner known) kind used := by
  apply builds_of_letters
  intro rule member
  obtain ⟨id, _, role⟩ := List.mem_flatMap.mp member
  simp only [List.mem_cons, List.not_mem_nil, or_false] at role
  rcases role with rfl | rfl
  · exact head
  · exact head

theorem builds_twoLetters (head : kind left) (other : kind right) (first second : Label) :
    Builds (letter left first ++ letter right second) kind used := by
  refine builds_of_letters fun rule member => ?_
  simp only [letter, List.cons_append, List.nil_append, List.mem_cons, List.not_mem_nil,
    or_false] at member
  rcases member with rfl | rfl
  · exact head
  · exact other

theorem builds_wrap (head : kind name) (body : used inner) (family : BracketFamily) :
    Builds (wrap name inner family) kind used := by
  refine ⟨by simp [wrap, concatenation], by simp [wrap, concatenation], ?_, ?_⟩
  · intro other otherInner owner member
    have same : wrapRule other otherInner owner = wrapRule name inner family :=
      List.mem_singleton.mp member
    cases congrArg ConcatenationRule.head same
    exact head
  · intro rule member other inBodies word
    obtain rfl := List.mem_singleton.mp member
    rcases List.mem_pair.mp inBodies with rfl | rfl
    · exact body
    · exact absurd word (not_isWordName_pairName family)

theorem builds_sequence (first : used left) (second : used right) (name : Nonterminal) :
    Builds (sequence name left right) kind used := by
  refine ⟨by simp [sequence, concatenation], by simp [sequence, concatenation],
    by simp [sequence, concatenation, wrapRule], ?_⟩
  intro rule member other inBodies _
  obtain rfl := List.mem_singleton.mp member
  rcases List.mem_pair.mp inBodies with rfl | rfl
  · exact first
  · exact second

theorem builds_rename (body : used source) (name : Nonterminal) :
    Builds (rename name source) kind used := by
  refine ⟨by simp [rename, concatenation], by simp [rename, concatenation],
    by simp [rename, concatenation, wrapRule], ?_⟩
  intro rule member other inBodies _
  obtain rfl := List.mem_singleton.mp member
  exact List.mem_singleton.mp inBodies ▸ body

theorem builds_ifAny {known : List Nat} {grammar : Grammar}
    (builds : Builds grammar kind used) : Builds (ifAny known grammar) kind used := by
  unfold ifAny
  split
  · refine ⟨?_, ?_, ?_, ?_⟩ <;> simp [Grammar.empty]
  · exact builds

end Blocks

/-- A grammar is silent when the letters and the wrapped words of its building blocks
absorb the silent words, as far as they are the start or for use. -/
theorem Builds.silentGrammar {grammar : Grammar} {kind used : Nonterminal → Prop}
    {ids : BracketIds} {families : BracketFamily → Prop} {silent : Nonterminal}
    (builds : Builds grammar kind used) (matching : MatchingGrammar grammar ids families)
    (epsilon : (⟨silent, Grammar.epsilon⟩ : BasicRule) ∈ grammar.basic)
    (repeats : sequenceRule silent silent silent ∈ grammar.concatenate)
    (absorbs : ∀ name, kind name → name = Grammar.startName ∨ used name →
      Absorbs grammar silent name) : SilentGrammar grammar silent where
  shape := by
    refine ⟨matching.shape.basic, fun rule member => ?_, matching.shape.prepend,
      matching.shape.append, matching.shape.concatenate⟩
    obtain ⟨family, id, _, rfl⟩ := matching.shape.insert rule member
    exact ⟨family, id, ⟨builds.opens family id member, member⟩, rfl⟩
  noPrepend := matching.noPrepend
  noAppend := matching.noAppend
  epsilon := epsilon
  repeats := repeats
  letters rule member word needed := by
    refine absorbs _ (builds.letters rule member word) (needed.imp_right ?_)
    rintro ⟨user, isRule, body⟩
    exact builds.bodies user isRule rule.head body word
  wraps {name inner family} member needed := by
    refine absorbs _ (builds.wraps member) (needed.imp_right ?_)
    rintro ⟨user, isRule, body⟩
    exact builds.bodies user isRule name body (matching.shape.concatenate _ member).isWordName_head

/-! ## The three grammars -/

private theorem mem_ofFamily_both {family : BracketFamily} {ids : List Nat} {id : Nat}
    (member : id ∈ ids) : id ∈ (⟨ids, ids⟩ : BracketIds).ofFamily family := by
  cases family <;> exact member

theorem silentGrammar_balanced (family : BracketFamily) (own : List Nat)
    (passing : BracketFamily) (passingIds : List Nat) :
    SilentGrammar (balanced family own passing passingIds) Grammar.startName := by
  have repeats : sequenceRule Grammar.startName Grammar.startName Grammar.startName ∈
      (balanced family own passing passingIds).concatenate :=
    mem_concatenate_unions.mpr ⟨_, .tail _ (.tail _ (.tail _ (.head _))), .head _⟩
  have builds : Builds (balanced family own passing passingIds) (Grammar.startName = ·)
      fun _ => True := by
    apply builds_unions
    simp only [List.forall_mem_cons, List.not_mem_nil, false_implies, implies_true, and_true]
    exact ⟨builds_matchedPairs family own, builds_letters rfl passing passingIds,
      builds_twoLetters rfl rfl _ _, builds_sequence trivial trivial _,
      builds_ifAny (builds_wrap rfl trivial family)⟩
  have matching : MatchingGrammar (balanced family own passing passingIds)
      ⟨own ++ passingIds, own ++ passingIds⟩ fun _ => False :=
    matching_balanced_of_known
      (fun id member => mem_ofFamily_both (List.mem_append_left _ member))
      (fun id member => mem_ofFamily_both (List.mem_append_right _ member)) not_false
  refine builds.silentGrammar matching ?_ repeats ?_
  · exact mem_basic_unions.mpr ⟨_, .tail _ (.tail _ (.head _)), .head _⟩
  · rintro name rfl _
    exact ⟨repeats, repeats⟩

/-- In the interleaved grammar the start is silent. -/
theorem silentGrammar_interleaved (ids : BracketIds) :
    SilentGrammar (interleaved ids) Grammar.startName := by
  have repeats : sequenceRule Grammar.startName Grammar.startName Grammar.startName ∈
      (interleaved ids).concatenate :=
    mem_concatenate_unions.mpr ⟨_, .tail _ (.tail _ (.tail _ (.head _))), .head _⟩
  have builds : Builds (interleaved ids) (Grammar.startName = ·) fun _ => True := by
    apply builds_unions
    simp only [List.forall_mem_cons, List.not_mem_nil, false_implies, implies_true, and_true]
    exact ⟨builds_matchedPairs .parenthesis _, builds_matchedPairs .bracket _,
      builds_twoLetters rfl rfl _ _, builds_sequence trivial trivial _,
      builds_ifAny (builds_wrap rfl trivial .parenthesis),
      builds_ifAny (builds_wrap rfl trivial .bracket)⟩
  refine builds.silentGrammar (matching_interleaved ids) ?_ repeats ?_
  · exact mem_basic_unions.mpr ⟨_, .tail _ (.tail _ (.head _)), .head _⟩
  · rintro name rfl _
    exact ⟨repeats, repeats⟩

section Parity

open ParityState

variable (family : BracketFamily) (own : List Nat) (passing : BracketFamily)
  (passingIds : List Nat) (classCount : Nat)

/-- The names of words of the parity grammar that are made of others. -/
private def IsParityName (classCount : Nat) (name : Nonterminal) : Prop :=
  name = uncountedName ∨ ∃ state ∈ all (max classCount 1), name = state.name

/-- The names that the parity grammar gives letters and wrapped words.  A letter may have a
state that the grammar does not list, and then no rule makes use of it. -/
private def IsStateName (classCount : Nat) (name : Nonterminal) : Prop :=
  name = uncountedName ∨
    ∃ state : ParityState, state.Fits (max classCount 1) ∧ name = state.name

private theorem builds_parity :
    Builds (parity family own passing passingIds classCount) (IsStateName classCount)
      (IsParityName classCount) := by
  have fitting : ∀ state : ParityState, state.Fits (max classCount 1) →
      IsStateName classCount state.name := fun state fits => .inr ⟨state, fits, rfl⟩
  have listed : ∀ state ∈ all (max classCount 1), IsParityName classCount state.name :=
    fun state member => .inr ⟨state, member, rfl⟩
  have named : ∀ item ∈ (all (max classCount 1)).map fun state => (state, state.name),
      IsStateName classCount item.2 ∧ IsParityName classCount item.2 := by
    intro item member
    obtain ⟨state, isState, rfl⟩ := List.mem_map.mp member
    exact ⟨fitting state (fits_of_mem_all isState), listed state isState⟩
  apply builds_unions
  simp only [List.forall_mem_cons, List.not_mem_nil, false_implies, implies_true, and_true]
  refine ⟨builds_matchedPairs family own, builds_twoLetters (.inl rfl) (.inl rfl) _ _, ?_, ?_,
    builds_sequence (.inl rfl) (.inl rfl) _, ?_, builds_rename (.inl rfl) _,
    builds_rename (listed _ (cancelled_mem_all _)) _⟩
  · refine builds_unions fun grammar member => ?_
    obtain ⟨⟨id, place⟩, _, rfl⟩ := List.mem_map.mp member
    exact builds_twoLetters (fitting _ (fits_single _ _ _ _)) (fitting _ (fits_single _ _ _ _))
      _ _
  · refine builds_ifAny (builds_unions fun grammar member => ?_)
    rcases List.mem_cons.mp member with rfl | isNamed
    · exact builds_wrap (.inl rfl) (.inl rfl) family
    · obtain ⟨item, isItem, rfl⟩ := List.mem_map.mp isNamed
      obtain ⟨head, body⟩ := named item isItem
      exact builds_wrap head body family
  · refine builds_unions fun grammar member => ?_
    obtain ⟨left, isLeft, joins⟩ := List.mem_flatMap.mp member
    have leftBody := (named left isLeft).2
    rcases List.mem_cons.mp joins with rfl | joins
    · exact builds_sequence leftBody (.inl rfl) _
    · rcases List.mem_cons.mp joins with rfl | joins
      · exact builds_sequence (.inl rfl) leftBody _
      · obtain ⟨right, isRight, rfl⟩ := List.mem_map.mp joins
        exact builds_sequence leftBody (named right isRight).2 _

private theorem IsStateName.isParityName {classCount : Nat} {name : Nonterminal}
    (isName : IsStateName classCount name)
    (needed : name = Grammar.startName ∨ IsParityName classCount name) :
    IsParityName classCount name := by
  rcases needed with rfl | used
  · have positive : 0 < max classCount 1 := Nat.le_max_right _ _
    rcases isName with same | ⟨state, fits, same⟩
    · exact .inl same
    · exact absurd same.symm (name_ne_startName fits positive)
  · exact used

private theorem absorbs_parity {name : Nonterminal} (isName : IsParityName classCount name) :
    Absorbs (parity family own passing passingIds classCount) uncountedName name := by
  rcases isName with rfl | ⟨state, isState, rfl⟩
  · have repeats : sequenceRule uncountedName uncountedName uncountedName ∈
        (parity family own passing passingIds classCount).concatenate :=
      mem_concatenate_unions.mpr ⟨_, .tail _ (.tail _ (.tail _ (.tail _ (.head _)))), .head _⟩
    exact ⟨repeats, repeats⟩
  · have named : (state, state.name) ∈
        (all (max classCount 1)).map fun state => (state, state.name) :=
      List.mem_map.mpr ⟨state, isState, rfl⟩
    constructor
    · refine mem_concatenate_unions.mpr
        ⟨_, .tail _ (.tail _ (.tail _ (.tail _ (.tail _ (.head _))))), ?_⟩
      exact mem_concatenate_unions.mpr
        ⟨_, List.mem_flatMap.mpr ⟨_, named, .tail _ (.head _)⟩, .head _⟩
    · refine mem_concatenate_unions.mpr
        ⟨_, .tail _ (.tail _ (.tail _ (.tail _ (.tail _ (.head _))))), ?_⟩
      exact mem_concatenate_unions.mpr ⟨_, List.mem_flatMap.mpr ⟨_, named, .head _⟩, .head _⟩

theorem silentGrammar_parity :
    SilentGrammar (parity family own passing passingIds classCount) uncountedName := by
  have matching : MatchingGrammar (parity family own passing passingIds classCount)
      ⟨own ++ passingIds, own ++ passingIds⟩ fun _ => False :=
    matching_parity_of_known
      (fun id member => mem_ofFamily_both (List.mem_append_left _ member))
      (fun id member => mem_ofFamily_both (List.mem_append_right _ member)) not_false
  refine (builds_parity family own passing passingIds classCount).silentGrammar matching ?_
    (absorbs_parity family own passing passingIds classCount (.inl rfl)).before
    fun name isName needed =>
      absorbs_parity family own passing passingIds classCount (isName.isParityName needed)
  exact mem_basic_unions.mpr ⟨_, .tail _ (.head _), .head _⟩

end Parity

/-! ## Supporting edges -/

/-- A grammar that one of the three constructions builds, with any families, ids and
number of classes. -/
inductive BracketGrammar : Grammar → Prop where
  | balanced (family : BracketFamily) (own : List Nat) (passing : BracketFamily)
      (passingIds : List Nat) : BracketGrammar (balanced family own passing passingIds)
  | parity (family : BracketFamily) (own : List Nat) (passing : BracketFamily)
      (passingIds : List Nat) (classCount : Nat) :
      BracketGrammar (parity family own passing passingIds classCount)
  | interleaved (ids : BracketIds) : BracketGrammar (interleaved ids)

theorem BracketGrammar.exists_silent {grammar : Grammar} (bracket : BracketGrammar grammar) :
    ∃ silent, SilentGrammar grammar silent := by
  cases bracket with
  | balanced family own passing passingIds =>
      exact ⟨_, silentGrammar_balanced family own passing passingIds⟩
  | parity family own passing passingIds classCount =>
      exact ⟨_, silentGrammar_parity family own passing passingIds classCount⟩
  | interleaved ids => exact ⟨_, silentGrammar_interleaved ids⟩

/-- The edge lies on a walk of the graph along the span whose labels, but for epsilon, are
a word that the grammar accepts. -/
def OnAcceptedWalk (graph : Graph) (grammar : Grammar) (span : Span) (edge : Edge) : Prop :=
  ∃ path, Joins span.start path span.stop ∧ (∀ other ∈ path, other ∈ graph.edges) ∧
    edge ∈ path ∧ grammar.Accepts (lettersOf (wordOf path))

section Supports

variable {graph : Graph} {grammar : Grammar} {silent : Nonterminal} {targets : List Span}
  {provenance : Provenance} {edge : Edge}

theorem SilentGrammar.onAcceptedWalk_of_supports (rules : SilentGrammar grammar silent)
    (built : graph.Built) (known : (solve graph grammar {}).provenance = some provenance)
    (supports : edge ∈ provenance.supportingEdges targets) :
    ∃ span ∈ targets, span.isReflexive = false ∧ OnAcceptedWalk graph grammar span edge := by
  have ends := rules.shape.hasArities.solveEnds built {}
  obtain ⟨span, target, irreflexive, used, derives, member⟩ :=
    exists_derives_of_supports built ends known supports
  obtain ⟨path, joins, inside, uses, accepted⟩ := rules.walk_of_derives derives
  exact ⟨span, target, irreflexive, path, joins, inside, uses edge member, accepted⟩

theorem SilentGrammar.supports_of_onAcceptedWalk (rules : SilentGrammar grammar silent)
    (built : graph.Built) (known : (solve graph grammar {}).provenance = some provenance)
    (labelled : edge.isEpsilon = false) {span : Span} (target : span ∈ targets)
    (irreflexive : span.isReflexive = false) (onWalk : OnAcceptedWalk graph grammar span edge) :
    edge ∈ provenance.supportingEdges targets := by
  have ends := rules.shape.hasArities.solveEnds built {}
  obtain ⟨path, joins, inside, member, accepted⟩ := onWalk
  have startMember := joins.start_mem built (List.ne_nil_of_mem member) inside
  obtain ⟨used, derives, uses⟩ :=
    derives_of_accepts built rules ⟨joins, inside, startMember⟩ accepted
  exact mem_supportingEdges_of_derives built ends known derives irreflexive target
    (uses edge member) labelled

end Supports

/-- A run of a bracket grammar ends with a provenance, and what supports some targets there
are exactly the labelled edges on accepted walks between the different ends of one of
them. -/
theorem supportingEdges_exact {graph : Graph} (built : graph.Built) {grammar : Grammar}
    (bracket : BracketGrammar grammar) :
    SolveEnds graph grammar {} ∧
      ∃ provenance, (solve graph grammar {}).provenance = some provenance ∧
        ∀ (targets : List Span) (edge : Edge), edge.isEpsilon = false →
          (edge ∈ provenance.supportingEdges targets ↔
            ∃ span ∈ targets, span.isReflexive = false ∧
              OnAcceptedWalk graph grammar span edge) := by
  obtain ⟨silent, rules⟩ := bracket.exists_silent
  have ends := rules.shape.hasArities.solveEnds built {}
  obtain ⟨provenance, known⟩ := exists_provenance_solve ends
  refine ⟨ends, provenance, known, fun targets edge labelled => ⟨fun supports => ?_, ?_⟩⟩
  · exact rules.onAcceptedWalk_of_supports built known supports
  · rintro ⟨span, target, irreflexive, onWalk⟩
    exact rules.supports_of_onAcceptedWalk built known labelled target irreflexive onWalk

/-- A pair around pairs that can be repeated, and a stray opening bracket behind it. -/
def nestedLoops : List Edge :=
  [⟨0, 1, "ob--1"⟩, ⟨1, 1, "ob--2"⟩, ⟨1, 2, "normal"⟩, ⟨2, 2, "cb--2"⟩, ⟨2, 3, "cb--1"⟩,
    ⟨3, 4, "ob--2"⟩]

/-- What supports the outer pair lies on a walk along it, and the stray bracket does not. -/
theorem supportingEdges_exact_nestedLoops :
    let graph := Graph.ofEdges nestedLoops
    let grammar := balanced .bracket [1, 2] .parenthesis []
    graph.Built ∧ BracketGrammar grammar ∧
      ∃ provenance, (solve graph grammar {}).provenance = some provenance ∧
        (provenance.supportingEdges [⟨0, 3⟩]).toList = nestedLoops.take 5 ∧
        ∀ edge ∈ nestedLoops,
          OnAcceptedWalk graph grammar ⟨0, 3⟩ edge ↔ edge ≠ ⟨3, 4, "ob--2"⟩ := by
  intro graph grammar
  have built : graph.Built := Graph.built_ofEdges nestedLoops
  have bracket : BracketGrammar grammar := .balanced .bracket [1, 2] .parenthesis []
  obtain ⟨_, provenance, known, exact⟩ := supportingEdges_exact built bracket
  have listed : ((solve graph grammar {}).provenance.map fun provenance =>
      (provenance.supportingEdges [⟨0, 3⟩]).toList) = some (nestedLoops.take 5) := by
    decide +kernel
  rw [known, Option.map_some, Option.some.injEq] at listed
  refine ⟨built, bracket, provenance, known, listed, fun edge member => ?_⟩
  have labelled : ∀ other ∈ nestedLoops, other.isEpsilon = false := by decide
  have supports := exact [⟨0, 3⟩] edge (labelled edge member)
  simp only [List.mem_singleton, exists_eq_left] at supports
  rw [← Std.TreeSet.mem_toList, listed] at supports
  have irreflexive : (⟨0, 3⟩ : Span).isReflexive = false := by decide
  have others : ∀ other ∈ nestedLoops,
      (other ∈ nestedLoops.take 5 ↔ other ≠ ⟨3, 4, "ob--2"⟩) := by decide
  rw [← others edge member, supports]
  exact ⟨fun onWalk => ⟨irreflexive, onWalk⟩, And.right⟩

end BracketLanguage

end GrammarReach
