import GrammarReach.Proofs.Bracket.WordDerivations
import GrammarReach.Proofs.Grammar.Languages

/-!
# Silent words

A bracket grammar is silent when words of nothing but epsilon may stand in front of and
behind all words that it builds.  It then derives the span of every walk whose letters it
accepts, with every edge of the walk, and only spans of such walks.
-/

namespace GrammarReach

namespace BracketLanguage

/-! ## What the rules for words yield -/

section Yields

variable {grammar : Grammar} {name left right inner source : Nonterminal}
  {family : BracketFamily}

theorem yields_sequence (member : sequenceRule name left right ∈ grammar.concatenate)
    {before behind : List Label} (first : grammar.Yields left [before])
    (second : grammar.Yields right [behind]) : grammar.Yields name [before ++ behind] := by
  let words : Nat → List (List Label) := fun position =>
    if position = 0 then [before] else [behind]
  have bodies : ∀ (position : Nat) body,
      (sequenceRule name left right).bodies[position]? = some body →
      grammar.Yields body (words position) :=
    forall_bodies first second
  refine .concatenate words member (proper_sequenceRule name left right) bodies ?_
  simp [sequenceRule, ConcatenationRule.words?, SegmentRef.word?, words]

theorem yields_wrap (member : wrapRule name inner family ∈ grammar.concatenate)
    {word opened closed : List Label} (within : grammar.Yields inner [word])
    (pair : grammar.Yields (pairName family) [opened, closed]) :
    grammar.Yields name [opened ++ (word ++ closed)] := by
  let words : Nat → List (List Label) := fun position =>
    if position = 0 then [word] else [opened, closed]
  have bodies : ∀ (position : Nat) body,
      (wrapRule name inner family).bodies[position]? = some body →
      grammar.Yields body (words position) :=
    forall_bodies within pair
  refine .concatenate words member (proper_wrapRule name inner family) bodies ?_
  simp [wrapRule, ConcatenationRule.words?, SegmentRef.word?, words]

theorem yields_rename (member : renameRule name source ∈ grammar.concatenate)
    {word : List Label} (yields : grammar.Yields source [word]) :
    grammar.Yields name [word] := by
  have bodies : ∀ (position : Nat) body,
      (renameRule name source).bodies[position]? = some body →
      grammar.Yields body [word] :=
    forall_body yields
  refine .concatenate (fun _ => [word]) member (proper_renameRule name source) bodies ?_
  simp [renameRule, ConcatenationRule.words?, SegmentRef.word?]

theorem yields_pair {id : Nat} (openerMember : openerRule family id ∈ grammar.basic)
    (pairMember : pairRule family id ∈ grammar.insert) :
    grammar.Yields (pairName family)
      [lettersOf [family.openLabel id], lettersOf [family.closeLabel id]] :=
  .insert pairMember (.basic openerMember) (Nat.le_refl 1)

end Yields

/-! ## Silent words -/

/-- Words of the silent name may stand in front of and behind those of the other one. -/
structure Absorbs (grammar : Grammar) (silent name : Nonterminal) : Prop where
  before : sequenceRule name silent name ∈ grammar.concatenate
  behind : sequenceRule name name silent ∈ grammar.concatenate

/-- The name is the start, or a body of a concatenation. -/
def NeedsName (grammar : Grammar) (name : Nonterminal) : Prop :=
  name = Grammar.startName ∨ ∃ rule ∈ grammar.concatenate, name ∈ rule.bodies

/-- A bracket grammar without extensions in which all letters that are needed and all wrapped
words absorb the words of a name that has epsilon for a letter. -/
structure SilentGrammar (grammar : Grammar) (silent : Nonterminal) : Prop where
  shape : WordGrammar grammar fun family id =>
    openerRule family id ∈ grammar.basic ∧ pairRule family id ∈ grammar.insert
  noPrepend : grammar.prepend = []
  noAppend : grammar.append = []
  epsilon : (⟨silent, Grammar.epsilon⟩ : BasicRule) ∈ grammar.basic
  repeats : sequenceRule silent silent silent ∈ grammar.concatenate
  letters : ∀ rule ∈ grammar.basic, IsWordName rule.head → NeedsName grammar rule.head →
    Absorbs grammar silent rule.head
  wraps : ∀ {name inner family}, wrapRule name inner family ∈ grammar.concatenate →
    NeedsName grammar name → Absorbs grammar silent name

/-! ## From derivations to accepted walks -/

section Silent

variable {grammar : Grammar} {silent : Nonterminal} {graph : Graph}

/-- The letters of words go along with the rules. -/
theorem SilentGrammar.respects (rules : SilentGrammar grammar silent) :
    Respects grammar
      (fun family id =>
        openerRule family id ∈ grammar.basic ∧ pairRule family id ∈ grammar.insert)
      fun name word => grammar.Yields name [lettersOf word] where
  letter rule member _ := .basic member
  sequence member _ _ before behind := by
    rw [lettersOf_append]
    exact yields_sequence member before behind
  wrap {name inner family} member {id word} matched within := by
    have whole : lettersOf (family.openLabel id :: (word ++ [family.closeLabel id])) =
        lettersOf [family.openLabel id] ++ (lettersOf word ++ lettersOf [family.closeLabel id]) := by
      rw [← lettersOf_append, ← lettersOf_append]
      rfl
    rw [whole]
    exact yields_wrap member within (yields_pair matched.1 matched.2)
  rename member _ word := yields_rename member word
  prepend rule member := by simp [rules.noPrepend] at member
  append rule member := by simp [rules.noAppend] at member

theorem SilentGrammar.walk_of_derives (rules : SilentGrammar grammar silent) {span : Span}
    {used : List Edge} (derives : grammar.Derives graph Grammar.startName [span] used) :
    ∃ path, Joins span.start path span.stop ∧ (∀ edge ∈ path, edge ∈ graph.edges) ∧
      (∀ edge ∈ used, edge ∈ path) ∧ grammar.Accepts (lettersOf (wordOf path)) :=
  wordWalk_of_derives rules.shape rules.respects isWordName_startName derives

/-! ## From accepted walks to derivations -/

/-- The path leads through the graph, from one of its vertices to the other one. -/
structure InnerWalk (graph : Graph) (start : Vertex) (path : List Edge) (stop : Vertex) :
    Prop where
  joins : Joins start path stop
  inside : ∀ edge ∈ path, edge ∈ graph.edges
  member : start ∈ graph.vertices

theorem InnerWalk.split (built : graph.Built) {start stop : Vertex} {left right : List Edge}
    (walk : InnerWalk graph start (left ++ right) stop) :
    ∃ middle, InnerWalk graph start left middle ∧ InnerWalk graph middle right stop := by
  obtain ⟨middle, before, behind⟩ := Joins.append_iff.mp walk.joins
  have leftInside : ∀ edge ∈ left, edge ∈ graph.edges :=
    fun edge inPath => walk.inside edge (by simp [inPath])
  have middleMember : middle ∈ graph.vertices :=
    before.transport (· ∈ graph.vertices)
      (fun edge inPath _ => built.closed.target_mem edge (leftInside edge inPath)) walk.member
  exact ⟨middle, ⟨before, leftInside, walk.member⟩, behind,
    fun edge inPath => walk.inside edge (by simp [inPath]), middleMember⟩

theorem InnerWalk.uncons (built : graph.Built) {start stop : Vertex} {edge : Edge}
    {path : List Edge} (walk : InnerWalk graph start (edge :: path) stop) :
    edge ∈ graph.edges ∧ edge.source = start ∧ InnerWalk graph edge.target path stop := by
  obtain ⟨source, rest⟩ := walk.joins
  have member := walk.inside edge (by simp)
  exact ⟨member, source, rest, fun other inPath => walk.inside other (by simp [inPath]),
    built.closed.target_mem edge member⟩

/-- The spans of all walks with the given letters are derived, with the edges of the
walk. -/
def DerivesWalks (grammar : Grammar) (graph : Graph) (name : Nonterminal)
    (letters : List Label) : Prop :=
  ∀ start path stop, InnerWalk graph start path stop → lettersOf (wordOf path) = letters →
    DerivesPath grammar graph name start stop path

theorem exists_split_of_lettersOf {path : List Edge} {left right : List Label}
    (split : lettersOf (wordOf path) = left ++ right) :
    ∃ before behind, path = before ++ behind ∧ lettersOf (wordOf before) = left ∧
      lettersOf (wordOf behind) = right := by
  obtain ⟨first, second, words, rfl, rfl⟩ := List.filter_eq_append_iff.mp split
  obtain ⟨before, behind, rfl, rfl, rfl⟩ := List.map_eq_append_iff.mp words
  exact ⟨before, behind, rfl, rfl, rfl⟩

theorem exists_edge_of_lettersOf {path : List Edge} {label : Label}
    (single : lettersOf (wordOf path) = [label]) :
    ∃ before edge behind, path = before ++ edge :: behind ∧ edge.label = label ∧
      lettersOf (wordOf before) = [] ∧ lettersOf (wordOf behind) = [] := by
  obtain ⟨first, second, words, noFirst, _, noSecond⟩ := List.filter_eq_cons_iff.mp single
  obtain ⟨before, rest, rfl, rfl, tail⟩ := List.map_eq_append_iff.mp words
  obtain ⟨edge, behind, rfl, rfl, rfl⟩ := List.map_eq_cons_iff.mp tail
  exact ⟨before, edge, behind, rfl, rfl, List.filter_eq_nil_iff.mpr noFirst, noSecond⟩

section Walks

variable (built : graph.Built)

include built in
theorem DerivesWalks.sequence {name left right : Nonterminal} {before behind : List Label}
    (member : sequenceRule name left right ∈ grammar.concatenate)
    (first : DerivesWalks grammar graph left before)
    (second : DerivesWalks grammar graph right behind) :
    DerivesWalks grammar graph name (before ++ behind) := by
  intro start path stop walk letters
  obtain ⟨firstPath, secondPath, rfl, firstLetters, secondLetters⟩ :=
    exists_split_of_lettersOf letters
  obtain ⟨middle, firstWalk, secondWalk⟩ := walk.split built
  exact (first _ _ _ firstWalk firstLetters).sequence member
    (second _ _ _ secondWalk secondLetters)

theorem DerivesWalks.rename {name source : Nonterminal} {letters : List Label}
    (member : renameRule name source ∈ grammar.concatenate)
    (walks : DerivesWalks grammar graph source letters) :
    DerivesWalks grammar graph name letters := by
  intro start path stop walk same
  obtain ⟨used, derives, covers⟩ := walks start path stop walk same
  exact ⟨used, derives_rename member derives, covers⟩

variable (rules : SilentGrammar grammar silent)

include built rules

theorem derivesWalks_silent : DerivesWalks grammar graph silent [] := by
  intro start path stop walk silence
  induction path generalizing start with
  | nil =>
      have loop := built.closed.loop_mem start walk.member
      cases walk.joins
      exact ⟨_, .basic rules.epsilon loop rfl, by simp⟩
  | cons edge path induction =>
      obtain ⟨member, rfl, rest⟩ := walk.uncons built
      have epsilon : edge.label = Grammar.epsilon := by
        by_contra letter
        rw [wordOf_cons, lettersOf_cons_of_ne letter] at silence
        cases silence
      rw [wordOf_cons, epsilon, lettersOf_epsilon_cons] at silence
      have first : DerivesPath grammar graph silent edge.source edge.target [edge] :=
        ⟨_, .basic rules.epsilon member epsilon, by simp⟩
      exact first.sequence rules.repeats (induction edge.target rest silence)

theorem DerivesPath.absorb {name : Nonterminal} (absorbs : Absorbs grammar silent name)
    {start first second stop : Vertex} {before path behind : List Edge}
    (derives : DerivesPath grammar graph name first second path)
    (beforeWalk : InnerWalk graph start before first)
    (beforeSilent : lettersOf (wordOf before) = [])
    (behindWalk : InnerWalk graph second behind stop)
    (behindSilent : lettersOf (wordOf behind) = []) :
    DerivesPath grammar graph name start stop (before ++ (path ++ behind)) := by
  have silence := derivesWalks_silent built rules
  have ahead := silence _ _ _ beforeWalk beforeSilent
  have after := silence _ _ _ behindWalk behindSilent
  exact ahead.sequence absorbs.before (derives.sequence absorbs.behind after)

theorem derivesWalks_letter {rule : BasicRule} (member : rule ∈ grammar.basic)
    (word : IsWordName rule.head) (needed : NeedsName grammar rule.head) :
    DerivesWalks grammar graph rule.head (lettersOf [rule.label]) := by
  intro start path stop walk letters
  have absorbs := rules.letters rule member word needed
  by_cases epsilon : rule.label = Grammar.epsilon
  · rw [epsilon, lettersOf_epsilon_cons, lettersOf_nil] at letters
    have loop : DerivesPath grammar graph rule.head start start [] :=
      ⟨_, .basic member (built.closed.loop_mem start walk.member) epsilon.symm, by simp⟩
    exact loop.sequence absorbs.behind (derivesWalks_silent built rules _ _ _ walk letters)
  · rw [lettersOf_cons_of_ne epsilon, lettersOf_nil] at letters
    obtain ⟨before, edge, behind, rfl, label, beforeSilent, behindSilent⟩ :=
      exists_edge_of_lettersOf letters
    obtain ⟨middle, beforeWalk, rest⟩ := walk.split built
    obtain ⟨edgeMember, rfl, behindWalk⟩ := rest.uncons built
    have single : DerivesPath grammar graph rule.head edge.source edge.target [edge] :=
      ⟨_, .basic member edgeMember label, by simp⟩
    exact single.absorb built rules absorbs beforeWalk beforeSilent behindWalk behindSilent

/-- A wrapped word derives the walks with a pair around the letters of the word. -/
theorem DerivesWalks.wrap {name inner : Nonterminal} {family : BracketFamily} {id : Nat}
    {letters : List Label} (member : wrapRule name inner family ∈ grammar.concatenate)
    (openerMember : openerRule family id ∈ grammar.basic)
    (pairMember : pairRule family id ∈ grammar.insert) (needed : NeedsName grammar name)
    (walks : DerivesWalks grammar graph inner letters) :
    DerivesWalks grammar graph name
      ([family.openLabel id] ++ (letters ++ [family.closeLabel id])) := by
  intro start path stop walk whole
  obtain ⟨openPath, rest, rfl, openLetters, restLetters⟩ := exists_split_of_lettersOf whole
  obtain ⟨innerPath, closePath, rfl, innerLetters, closeLetters⟩ :=
    exists_split_of_lettersOf restLetters
  obtain ⟨before, opened, afterOpen, rfl, openLabel, beforeSilent, afterSilent⟩ :=
    exists_edge_of_lettersOf openLetters
  obtain ⟨beforeClose, closed, behind, rfl, closeLabel, closeSilent, behindSilent⟩ :=
    exists_edge_of_lettersOf closeLetters
  let within := afterOpen ++ (innerPath ++ beforeClose)
  have withinLetters : lettersOf (wordOf within) = letters := by
    simp [within, afterSilent, closeSilent, innerLetters]
  have regroup : before ++ opened :: afterOpen ++
      (innerPath ++ (beforeClose ++ closed :: behind)) =
      before ++ (opened :: (within ++ closed :: behind)) := by
    simp [within]
  rw [regroup] at walk
  obtain ⟨_, beforeWalk, openedWalk⟩ := walk.split built
  obtain ⟨openedMember, rfl, withinBehind⟩ := openedWalk.uncons built
  obtain ⟨_, withinWalk, closedWalk⟩ := withinBehind.split built
  obtain ⟨closedMember, rfl, behindWalk⟩ := closedWalk.uncons built
  have reaches := Components.reaches_of_joins built withinWalk.joins withinWalk.inside
    withinWalk.member
  have wrapped := (walks _ _ _ withinWalk withinLetters).wrap member openerMember pairMember
    openedMember closedMember openLabel closeLabel reaches
  have absorbed := wrapped.absorb built rules (rules.wraps member needed) beforeWalk beforeSilent
    behindWalk behindSilent
  simpa [within] using absorbed

/-- What the words of each kind of nonterminal are. -/
private structure Reads (grammar : Grammar) (graph : Graph) (name : Nonterminal)
    (words : List (List Label)) : Prop where
  word : IsWordName name → NeedsName grammar name → ∃ letters, words = [letters] ∧
    DerivesWalks grammar graph name letters
  opener : ∀ family id, name = openerName family id → words = [[family.openLabel id]]
  pair : ∀ family, name = pairName family → ∃ id, openerRule family id ∈ grammar.basic ∧
    pairRule family id ∈ grammar.insert ∧
      words = [[family.openLabel id], [family.closeLabel id]]

omit built rules in
private theorem reads_word {name : Nonterminal} {letters : List Label}
    (isWord : IsWordName name)
    (walks : NeedsName grammar name → DerivesWalks grammar graph name letters) :
    Reads grammar graph name [letters] := by
  constructor
  · intro _ needed
    exact ⟨letters, rfl, walks needed⟩
  · rintro family id rfl
    exact absurd isWord (not_isWordName_openerName family id)
  · rintro family rfl
    exact absurd isWord (not_isWordName_pairName family)

omit built rules in
private theorem reads_opener (family : BracketFamily) (id : Nat) :
    Reads grammar graph (openerName family id) [lettersOf [family.openLabel id]] := by
  have letters := @lettersOf_cons_of_ne _ [] (family.openLabel_ne_epsilon id)
  constructor
  · intro word
    exact absurd word (not_isWordName_openerName family id)
  · intro owner other same
    obtain ⟨rfl, rfl⟩ := openerName_injective same
    exact congrArg (fun letters => [letters]) letters
  · intro owner same
    exact absurd same (openerName_ne_pairName family owner id)

omit built rules in
private theorem reads_pair {family : BracketFamily} {id : Nat}
    (openerMember : openerRule family id ∈ grammar.basic)
    (pairMember : pairRule family id ∈ grammar.insert) :
    Reads grammar graph (pairName family)
      [[family.openLabel id], lettersOf [family.closeLabel id]] := by
  have letters := @lettersOf_cons_of_ne _ [] (family.closeLabel_ne_epsilon id)
  constructor
  · intro word
    exact absurd word (not_isWordName_pairName family)
  · intro owner other same
    exact absurd same.symm (openerName_ne_pairName owner family other)
  · intro owner same
    cases pairName_injective same
    exact ⟨id, openerMember, pairMember,
      congrArg (fun letters => [[family.openLabel id], letters]) letters⟩

private theorem reads_of_yields {name : Nonterminal} {words : List (List Label)}
    (yields : grammar.Yields name words) : Reads grammar graph name words := by
  induction yields with
  | @basic rule member =>
      rcases rules.shape.basic rule member with word | ⟨family, id, rfl⟩
      · exact reads_word word (derivesWalks_letter built rules member word)
      · exact reads_opener family id
  | prepend member => simp [rules.noPrepend] at member
  | append member => simp [rules.noAppend] at member
  | @insert rule words member _ _ induction =>
      obtain ⟨family, id, ⟨openerMember, pairMember⟩, rfl⟩ := rules.shape.insert rule member
      obtain rfl := induction.opener family id rfl
      exact reads_pair openerMember pairMember
  | @concatenate rule result words member _ _ wired induction =>
      have needed : ∀ name ∈ rule.bodies, NeedsName grammar name :=
        fun name body => .inr ⟨rule, member, body⟩
      cases rules.shape.concatenate rule member with
      | @sequence name left right head leftWord rightWord =>
          obtain ⟨before, first, firstWalks⟩ :=
            (induction 0 left rfl).word leftWord (needed left List.mem_cons_self)
          obtain ⟨behind, second, secondWalks⟩ := (induction 1 right rfl).word rightWord
            (needed right (List.mem_cons_of_mem _ List.mem_cons_self))
          have whole : result = [before ++ behind] := by
            simpa [sequenceRule, ConcatenationRule.words?, SegmentRef.word?, first, second]
              using wired.symm
          exact whole ▸ reads_word head fun _ => firstWalks.sequence built member secondWalks
      | @wrap name inner family head innerWord =>
          obtain ⟨letters, within, walks⟩ :=
            (induction 0 inner rfl).word innerWord (needed inner List.mem_cons_self)
          obtain ⟨id, openerMember, pairMember, pair⟩ :=
            (induction 1 (pairName family) rfl).pair family rfl
          have whole : result =
              [[family.openLabel id] ++ (letters ++ [family.closeLabel id])] := by
            simpa [wrapRule, ConcatenationRule.words?, SegmentRef.word?, within, pair]
              using wired.symm
          exact whole ▸ reads_word head
            (walks.wrap built rules member openerMember pairMember)
      | @rename name source head sourceWord =>
          obtain ⟨letters, only, walks⟩ :=
            (induction 0 source rfl).word sourceWord (needed source List.mem_cons_self)
          have whole : result = [letters] := by
            simpa [renameRule, ConcatenationRule.words?, SegmentRef.word?, only]
              using wired.symm
          exact whole ▸ reads_word head fun _ => walks.rename member

/-- The span of a walk whose letters are accepted is derived, with the edges of the
walk. -/
theorem derives_of_accepts {start stop : Vertex} {path : List Edge}
    (walk : InnerWalk graph start path stop)
    (accepted : grammar.Accepts (lettersOf (wordOf path))) :
    DerivesPath grammar graph Grammar.startName start stop path := by
  obtain ⟨letters, same, walks⟩ :=
    (reads_of_yields built rules accepted).word isWordName_startName (.inl rfl)
  cases same
  exact walks start path stop walk rfl

end Walks

end Silent

end BracketLanguage

end GrammarReach
