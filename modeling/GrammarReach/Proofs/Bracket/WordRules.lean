import GrammarReach.Bracket.Language
import GrammarReach.Proofs.Bracket.Nesting
import GrammarReach.Proofs.Graph.Walks
import GrammarReach.Proofs.Saturation.Termination

/-!
# Rules for words

A bracket grammar derives words for the names that start with `S`.  Its rules put
words one behind the other, put a matched pair around a word, give a word another
name, or lengthen it by a letter.  A property of words that these rules keep holds
for the word of some walk behind every span that the grammar derives.
-/

namespace GrammarReach

namespace BracketLanguage

/-! ## Names -/

/-- The nonterminals of words start with the letter of the start nonterminal. -/
def IsWordName (name : Nonterminal) : Prop :=
  name.toList.head? = some 'S'

instance (name : Nonterminal) : Decidable (IsWordName name) :=
  inferInstanceAs (Decidable (_ = _))

theorem isWordName_startName : IsWordName Grammar.startName := by
  decide

/-- Matched pairs have two segments, everything else has one. -/
def arityOf (name : Nonterminal) : Nat :=
  if name = pairName .parenthesis ∨ name = pairName .bracket then 2 else 1

theorem toList_openerName (family : BracketFamily) (id : Nat) :
    (openerName family id).toList =
      (pairName family).toList ++ 'o' :: (Text.decimal id).toList := by
  simp [openerName]

theorem not_isWordName_pairName (family : BracketFamily) :
    ¬ IsWordName (pairName family) := by
  cases family with
  | parenthesis => decide
  | bracket => decide

theorem not_isWordName_openerName (family : BracketFamily) (id : Nat) :
    ¬ IsWordName (openerName family id) := by
  unfold IsWordName
  rw [toList_openerName]
  cases family with
  | parenthesis => simp [pairName]
  | bracket => simp [pairName]

theorem openerName_ne_pairName (owner family : BracketFamily) (id : Nat) :
    openerName owner id ≠ pairName family := by
  intro same
  have texts := congrArg String.toList same
  rw [toList_openerName] at texts
  cases owner with
  | parenthesis => cases family <;> simp [pairName] at texts
  | bracket => cases family <;> simp [pairName] at texts

theorem pairName_injective {left right : BracketFamily}
    (same : pairName left = pairName right) : left = right := by
  have texts := congrArg String.toList same
  cases left with
  | parenthesis => cases right <;> simp [pairName] at texts ⊢
  | bracket => cases right <;> simp [pairName] at texts ⊢

theorem openerName_injective {left right : BracketFamily} {leftId rightId : Nat}
    (same : openerName left leftId = openerName right rightId) :
    left = right ∧ leftId = rightId := by
  have texts := congrArg String.toList same
  rw [toList_openerName, toList_openerName] at texts
  have families : left = right := by
    cases left with
    | parenthesis => cases right <;> simp [pairName] at texts ⊢
    | bracket => cases right <;> simp [pairName] at texts ⊢
  subst families
  have digits := List.append_cancel_left texts
  have decimals : Text.decimal leftId = Text.decimal rightId :=
    String.toList_inj.mp (List.cons.inj digits).2
  exact ⟨rfl, Text.decimal_injective decimals⟩

theorem arityOf_of_isWordName {name : Nonterminal} (word : IsWordName name) :
    arityOf name = 1 := by
  unfold arityOf
  rw [if_neg]
  rintro (rfl | rfl)
  · exact not_isWordName_pairName _ word
  · exact not_isWordName_pairName _ word

theorem arityOf_pairName (family : BracketFamily) : arityOf (pairName family) = 2 := by
  cases family <;> simp [arityOf]

theorem arityOf_openerName (family : BracketFamily) (id : Nat) :
    arityOf (openerName family id) = 1 := by
  unfold arityOf
  rw [if_neg]
  rintro (same | same)
  · exact openerName_ne_pairName _ _ _ same
  · exact openerName_ne_pairName _ _ _ same

/-! ## Rules -/

/-- A `left` word followed by a `right` word is a `name` word. -/
def sequenceRule (name left right : Nonterminal) : ConcatenationRule :=
  ⟨name, [left, right], [[⟨0, 0⟩, ⟨1, 0⟩]]⟩

/-- An `inner` word inside a matched pair is a `name` word. -/
def wrapRule (name inner : Nonterminal) (family : BracketFamily) : ConcatenationRule :=
  ⟨name, [inner, pairName family], [[⟨1, 0⟩, ⟨0, 0⟩, ⟨1, 1⟩]]⟩

/-- Every `source` word is a `name` word. -/
def renameRule (name source : Nonterminal) : ConcatenationRule :=
  ⟨name, [source], [[⟨0, 0⟩]]⟩

/-- An opening bracket is what its name stands for. -/
def openerRule (family : BracketFamily) (id : Nat) : BasicRule :=
  ⟨openerName family id, family.openLabel id⟩

/-- A closing bracket makes a matched pair of an opening one. -/
def pairRule (family : BracketFamily) (id : Nat) : InsertionRule :=
  ⟨pairName family, openerName family id, family.closeLabel id, 1, 1⟩

/-- The three shapes of concatenations of words. -/
inductive WordRule : ConcatenationRule → Prop where
  | sequence {name left right : Nonterminal} :
      IsWordName name → IsWordName left → IsWordName right →
      WordRule (sequenceRule name left right)
  | wrap {name inner : Nonterminal} (family : BracketFamily) :
      IsWordName name → IsWordName inner → WordRule (wrapRule name inner family)
  | rename {name source : Nonterminal} :
      IsWordName name → IsWordName source → WordRule (renameRule name source)

theorem WordRule.isWordName_head {rule : ConcatenationRule} (word : WordRule rule) :
    IsWordName rule.head := by
  cases word with
  | sequence head _ _ => exact head
  | wrap _ head _ => exact head
  | rename head _ => exact head

theorem proper_sequenceRule (name left right : Nonterminal) :
    (sequenceRule name left right).Proper := by
  constructor <;> simp [sequenceRule]

theorem proper_wrapRule (name inner : Nonterminal) (family : BracketFamily) :
    (wrapRule name inner family).Proper := by
  constructor <;> simp [wrapRule]

theorem proper_renameRule (name source : Nonterminal) : (renameRule name source).Proper := by
  constructor <;> simp [renameRule]

theorem forall_body {source : Nonterminal} {holds : Nat → Nonterminal → Prop}
    (only : holds 0 source) :
    ∀ position body, [source][position]? = some body → holds position body := by
  intro position body found
  cases position with
  | zero =>
      cases found
      exact only
  | succ position => simp at found

theorem forall_bodies {left right : Nonterminal} {holds : Nat → Nonterminal → Prop}
    (first : holds 0 left) (second : holds 1 right) :
    ∀ position body, [left, right][position]? = some body → holds position body := by
  intro position body found
  rcases position with _ | _ | position
  · cases found
    exact first
  · cases found
    exact second
  · simp at found

/-- All rules of the grammar are rules for words, opening brackets or pairs; the
pairs are those of the given brackets. -/
structure WordGrammar (grammar : Grammar) (matched : BracketFamily → Nat → Prop) :
    Prop where
  basic : ∀ rule ∈ grammar.basic,
    IsWordName rule.head ∨ ∃ family id, rule = openerRule family id
  insert : ∀ rule ∈ grammar.insert,
    ∃ family id, matched family id ∧ rule = pairRule family id
  prepend : ∀ rule ∈ grammar.prepend,
    IsWordName rule.head ∧ IsWordName rule.body ∧ rule.index = 0
  append : ∀ rule ∈ grammar.append,
    IsWordName rule.head ∧ IsWordName rule.body ∧ rule.index = 0
  concatenate : ∀ rule ∈ grammar.concatenate, WordRule rule

/-- In a bracket grammar the names decide the numbers of segments. -/
theorem WordGrammar.hasArities {grammar : Grammar}
    {matched : BracketFamily → Nat → Prop} (shape : WordGrammar grammar matched) :
    grammar.HasArities arityOf := by
  constructor
  · intro rule member
    rcases shape.basic rule member with word | ⟨family, id, rfl⟩
    · exact arityOf_of_isWordName word
    · exact arityOf_openerName family id
  · intro rule member
    obtain ⟨head, body, _⟩ := shape.prepend rule member
    rw [arityOf_of_isWordName head, arityOf_of_isWordName body]
  · intro rule member
    obtain ⟨head, body, _⟩ := shape.append rule member
    rw [arityOf_of_isWordName head, arityOf_of_isWordName body]
  · intro rule member
    obtain ⟨family, id, _, rfl⟩ := shape.insert rule member
    simp only [pairRule, arityOf_pairName, arityOf_openerName]
  · intro rule member
    rw [arityOf_of_isWordName (shape.concatenate rule member).isWordName_head]
    cases shape.concatenate rule member with
    | sequence _ _ _ => rfl
    | wrap _ _ _ => rfl
    | rename _ _ => rfl

/-! ## What the rules connect -/

section Connects

variable {name left right inner source : Nonterminal} {family : BracketFamily}
  {segments : Nat → List Span} {result : List Span}

private theorem span_of_length {list : List Span} {count position : Nat}
    (long : count ≤ list.length) (inside : position < count) :
    ∃ span, list[position]? = some span :=
  ⟨_, List.getElem?_eq_getElem (Nat.lt_of_lt_of_le inside long)⟩

theorem connects_sequenceRule
    (connects : (sequenceRule name left right).Connects segments result) :
    ∃ first second, (segments 0)[0]? = some first ∧ (segments 1)[0]? = some second ∧
      first.stop = second.start ∧ result = [⟨first.start, second.stop⟩] := by
  obtain ⟨first, firstFound⟩ := @span_of_length (segments 0) 1 0
    (connects.arities 0 (by simp [sequenceRule])) (by omega)
  obtain ⟨second, secondFound⟩ := @span_of_length (segments 1) 1 0
    (connects.arities 1 (by simp [sequenceRule])) (by omega)
  have meets := connects.linked (⟨0, 0⟩, ⟨1, 0⟩)
    (by simp [sequenceRule, ConcatenationRule.links, ConcatenationRule.neighbours])
    first second firstFound secondFound
  have chained := connects.chained
  simp [sequenceRule, SegmentRef.chainSpan?, SegmentRef.span?, firstFound, secondFound]
    at chained
  exact ⟨first, second, firstFound, secondFound, meets, chained.symm⟩

theorem connects_wrapRule
    (connects : (wrapRule name inner family).Connects segments result) :
    ∃ opened word closed, (segments 0)[0]? = some word ∧
      (segments 1)[0]? = some opened ∧ (segments 1)[1]? = some closed ∧
      opened.stop = word.start ∧ word.stop = closed.start ∧
      result = [⟨opened.start, closed.stop⟩] := by
  obtain ⟨word, wordFound⟩ := @span_of_length (segments 0) 1 0
    (connects.arities 0 (by simp [wrapRule])) (by omega)
  have pairLong : 2 ≤ (segments 1).length := connects.arities 1 (by simp [wrapRule])
  obtain ⟨opened, openedFound⟩ := @span_of_length (segments 1) 2 0 pairLong (by omega)
  obtain ⟨closed, closedFound⟩ := @span_of_length (segments 1) 2 1 pairLong (by omega)
  have opens := connects.linked (⟨1, 0⟩, ⟨0, 0⟩)
    (by simp [wrapRule, ConcatenationRule.links, ConcatenationRule.neighbours])
    opened word openedFound wordFound
  have closes := connects.linked (⟨0, 0⟩, ⟨1, 1⟩)
    (by simp [wrapRule, ConcatenationRule.links, ConcatenationRule.neighbours])
    word closed wordFound closedFound
  have chained := connects.chained
  simp [wrapRule, SegmentRef.chainSpan?, SegmentRef.span?, openedFound, closedFound]
    at chained
  exact ⟨opened, word, closed, wordFound, openedFound, closedFound, opens, closes,
    chained.symm⟩

theorem connects_renameRule (connects : (renameRule name source).Connects segments result) :
    ∃ word, (segments 0)[0]? = some word ∧ result = [word] := by
  obtain ⟨word, wordFound⟩ := @span_of_length (segments 0) 1 0
    (connects.arities 0 (by simp [renameRule])) (by omega)
  have chained := connects.chained
  simp [renameRule, SegmentRef.chainSpan?, SegmentRef.span?, wordFound] at chained
  exact ⟨word, wordFound, chained.symm⟩

end Connects

/-! ## Words behind spans -/

/-- The property of words goes along with every rule of the grammar. -/
structure Respects (grammar : Grammar) (matched : BracketFamily → Nat → Prop)
    (holds : Nonterminal → List Label → Prop) : Prop where
  letter : ∀ rule ∈ grammar.basic, IsWordName rule.head → holds rule.head [rule.label]
  sequence : ∀ {name left right}, sequenceRule name left right ∈ grammar.concatenate →
    ∀ {before behind}, holds left before → holds right behind →
      holds name (before ++ behind)
  wrap : ∀ {name inner family}, wrapRule name inner family ∈ grammar.concatenate →
    ∀ {id word}, matched family id → holds inner word →
      holds name (family.openLabel id :: (word ++ [family.closeLabel id]))
  rename : ∀ {name source}, renameRule name source ∈ grammar.concatenate →
    ∀ {word}, holds source word → holds name word
  prepend : ∀ rule ∈ grammar.prepend, ∀ {word}, holds rule.body word →
    holds rule.head (rule.label :: word)
  append : ∀ rule ∈ grammar.append, ∀ {word}, holds rule.body word →
    holds rule.head (word ++ [rule.label])

/-- A walk in the graph over all the used edges, with a word of the nonterminal. -/
def WordWalk (graph : Graph) (holds : Nonterminal → List Label → Prop)
    (name : Nonterminal) (span : Span) (used : List Edge) : Prop :=
  ∃ path, Joins span.start path span.stop ∧ (∀ edge ∈ path, edge ∈ graph.edges) ∧
    (∀ edge ∈ used, edge ∈ path) ∧ holds name (wordOf path)

/-- A walk in the graph over all the used edges spells the word. -/
private def Spells (graph : Graph) (start stop : Vertex) (used : List Edge)
    (word : List Label) : Prop :=
  ∃ path, Joins start path stop ∧ (∀ edge ∈ path, edge ∈ graph.edges) ∧
    (∀ edge ∈ used, edge ∈ path) ∧ wordOf path = word

private theorem Spells.single {graph : Graph} {edge : Edge} (member : edge ∈ graph.edges) :
    Spells graph edge.source edge.target [edge] [edge.label] :=
  ⟨[edge], .single edge, by simpa using member, fun _ inUsed => inUsed, rfl⟩

private theorem Spells.append {graph : Graph} {start middle stop : Vertex}
    {firstUsed secondUsed : List Edge} {before behind : List Label}
    (first : Spells graph start middle firstUsed before)
    (second : Spells graph middle stop secondUsed behind) :
    Spells graph start stop (firstUsed ++ secondUsed) (before ++ behind) := by
  obtain ⟨path, joins, inside, uses, rfl⟩ := first
  obtain ⟨later, laterJoins, laterInside, laterUses, rfl⟩ := second
  refine ⟨path ++ later, joins.append laterJoins, fun edge member => ?_, fun edge member => ?_,
    wordOf_append _ _⟩
  · exact (List.mem_append.mp member).elim (inside edge) (laterInside edge)
  · exact List.mem_append.mpr ((List.mem_append.mp member).imp (uses edge) (laterUses edge))

private theorem Spells.uses {graph : Graph} {start stop : Vertex} {used fewer : List Edge}
    {word : List Label} (spells : Spells graph start stop used word)
    (sub : ∀ edge ∈ fewer, edge ∈ used) : Spells graph start stop fewer word := by
  obtain ⟨path, joins, inside, uses, spelled⟩ := spells
  exact ⟨path, joins, inside, fun edge member => uses edge (sub edge member), spelled⟩

private theorem WordWalk.spells {graph : Graph} {holds : Nonterminal → List Label → Prop}
    {name : Nonterminal} {span : Span} {used : List Edge}
    (walk : WordWalk graph holds name span used) :
    ∃ word, Spells graph span.start span.stop used word ∧ holds name word := by
  obtain ⟨path, joins, inside, uses, word⟩ := walk
  exact ⟨wordOf path, ⟨path, joins, inside, uses, rfl⟩, word⟩

/-- What the segments of each kind of nonterminal stand for. -/
private structure Describes (graph : Graph) (matched : BracketFamily → Nat → Prop)
    (holds : Nonterminal → List Label → Prop) (name : Nonterminal)
    (segments : List Span) (used : List Edge) : Prop where
  word : IsWordName name → ∃ span, segments = [span] ∧ WordWalk graph holds name span used
  opener : ∀ family id, name = openerName family id → ∃ edge ∈ graph.edges,
    edge.label = family.openLabel id ∧ segments = [⟨edge.source, edge.target⟩] ∧
      ∀ other ∈ used, other = edge
  pair : ∀ family, name = pairName family → ∃ id opened closed,
    matched family id ∧ opened ∈ graph.edges ∧ closed ∈ graph.edges ∧
      opened.label = family.openLabel id ∧ closed.label = family.closeLabel id ∧
      segments = [⟨opened.source, opened.target⟩, ⟨closed.source, closed.target⟩] ∧
      ∀ other ∈ used, other = opened ∨ other = closed

section Describes

variable {graph : Graph} {matched : BracketFamily → Nat → Prop}
  {holds : Nonterminal → List Label → Prop}

private theorem describes_word {name : Nonterminal} {start stop : Vertex} {word : List Label}
    {used : List Edge} (isWord : IsWordName name) (spells : Spells graph start stop used word)
    (wordHolds : holds name word) :
    Describes graph matched holds name [⟨start, stop⟩] used := by
  obtain ⟨path, joins, inside, uses, rfl⟩ := spells
  constructor
  · intro _
    exact ⟨⟨start, stop⟩, rfl, path, joins, inside, uses, wordHolds⟩
  · rintro family id rfl
    exact absurd isWord (not_isWordName_openerName family id)
  · rintro family rfl
    exact absurd isWord (not_isWordName_pairName family)

private theorem describes_opener {family : BracketFamily} {id : Nat} {edge : Edge}
    (member : edge ∈ graph.edges) (label : edge.label = family.openLabel id) :
    Describes graph matched holds (openerName family id) [⟨edge.source, edge.target⟩]
      [edge] := by
  constructor
  · intro word
    exact absurd word (not_isWordName_openerName family id)
  · intro owner other same
    obtain ⟨rfl, rfl⟩ := openerName_injective same
    exact ⟨edge, member, label, rfl, fun other inUsed => List.mem_singleton.mp inUsed⟩
  · intro owner same
    exact absurd same (openerName_ne_pairName family owner id)

private theorem describes_pair {family : BracketFamily} {id : Nat} {opened closed : Edge}
    {used : List Edge} (isMatched : matched family id) (openedMember : opened ∈ graph.edges)
    (closedMember : closed ∈ graph.edges) (openedLabel : opened.label = family.openLabel id)
    (closedLabel : closed.label = family.closeLabel id)
    (uses : ∀ other ∈ used, other = opened ∨ other = closed) :
    Describes graph matched holds (pairName family)
      [⟨opened.source, opened.target⟩, ⟨closed.source, closed.target⟩] used := by
  constructor
  · intro word
    exact absurd word (not_isWordName_pairName family)
  · intro owner other same
    exact absurd same.symm (openerName_ne_pairName owner family other)
  · intro owner same
    cases pairName_injective same
    exact ⟨id, opened, closed, isMatched, openedMember, closedMember, openedLabel,
      closedLabel, rfl, uses⟩

private theorem Describes.spells {name : Nonterminal} {segments : List Span}
    {used : List Edge} (describes : Describes graph matched holds name segments used)
    (isWord : IsWordName name) :
    ∃ span word, segments = [span] ∧ Spells graph span.start span.stop used word ∧
      holds name word := by
  obtain ⟨span, only, walk⟩ := describes.word isWord
  obtain ⟨word, spells, wordHolds⟩ := walk.spells
  exact ⟨span, word, only, spells, wordHolds⟩

end Describes

section Sound

variable {grammar : Grammar} {graph : Graph} {matched : BracketFamily → Nat → Prop}
  {holds : Nonterminal → List Label → Prop}

private theorem describes_sequence {name left right : Nonterminal} {segments : Nat → List Span}
    {used : Nat → List Edge} {result : List Span} (respects : Respects grammar matched holds)
    (member : sequenceRule name left right ∈ grammar.concatenate) (head : IsWordName name)
    (leftWord : IsWordName left) (rightWord : IsWordName right)
    (connects : (sequenceRule name left right).Connects segments result)
    (before : Describes graph matched holds left (segments 0) (used 0))
    (behind : Describes graph matched holds right (segments 1) (used 1)) :
    Describes graph matched holds name result ((List.range 2).flatMap used) := by
  obtain ⟨first, second, firstFound, secondFound, meets, rfl⟩ :=
    connects_sequenceRule connects
  obtain ⟨_, _, firstOnly, firstSpells, firstHolds⟩ := before.spells leftWord
  obtain ⟨_, _, secondOnly, secondSpells, secondHolds⟩ := behind.spells rightWord
  rw [firstOnly] at firstFound
  rw [secondOnly] at secondFound
  cases firstFound
  cases secondFound
  have whole := firstSpells.append (meets ▸ secondSpells)
  refine describes_word head (whole.uses fun edge inUsed => ?_)
    (respects.sequence member firstHolds secondHolds)
  simpa [List.range_succ] using inUsed

private theorem describes_wrap {name inner : Nonterminal} {family : BracketFamily}
    {segments : Nat → List Span} {used : Nat → List Edge} {result : List Span}
    (respects : Respects grammar matched holds)
    (member : wrapRule name inner family ∈ grammar.concatenate) (head : IsWordName name)
    (innerWord : IsWordName inner)
    (connects : (wrapRule name inner family).Connects segments result)
    (within : Describes graph matched holds inner (segments 0) (used 0))
    (around : Describes graph matched holds (pairName family) (segments 1) (used 1)) :
    Describes graph matched holds name result ((List.range 2).flatMap used) := by
  obtain ⟨opened, span, closed, spanFound, openedFound, closedFound, opens, closes, rfl⟩ :=
    connects_wrapRule connects
  obtain ⟨_, word, only, spells, wordHolds⟩ := within.spells innerWord
  obtain ⟨id, openEdge, closeEdge, isMatched, openMember, closeMember, openLabel,
    closeLabel, pair, uses⟩ := around.pair family rfl
  rw [only] at spanFound
  rw [pair] at openedFound closedFound
  cases spanFound
  cases openedFound
  cases closedFound
  simp only at opens closes
  have behind := spells.append (closes ▸ Spells.single closeMember)
  have whole := (Spells.single openMember).append (opens ▸ behind)
  rw [openLabel, closeLabel] at whole
  refine describes_word head (whole.uses fun edge inUsed => ?_)
    (respects.wrap member isMatched wordHolds)
  have parts : edge ∈ used 0 ∨ edge ∈ used 1 := by simpa [List.range_succ] using inUsed
  simp only [List.mem_append, List.mem_singleton]
  rcases parts with inWord | inPair
  · exact Or.inr (Or.inl inWord)
  · exact (uses edge inPair).imp_right Or.inr

private theorem describes_rename {name source : Nonterminal} {segments : Nat → List Span}
    {used : Nat → List Edge} {result : List Span} (respects : Respects grammar matched holds)
    (member : renameRule name source ∈ grammar.concatenate) (head : IsWordName name)
    (sourceWord : IsWordName source)
    (connects : (renameRule name source).Connects segments result)
    (same : Describes graph matched holds source (segments 0) (used 0)) :
    Describes graph matched holds name result ((List.range 1).flatMap used) := by
  obtain ⟨span, spanFound, rfl⟩ := connects_renameRule connects
  obtain ⟨_, word, only, spells, wordHolds⟩ := same.spells sourceWord
  rw [only] at spanFound
  cases spanFound
  refine describes_word head (spells.uses fun edge inUsed => ?_)
    (respects.rename member wordHolds)
  simpa [List.range_succ] using inUsed

private theorem describes_of_derives (shape : WordGrammar grammar matched)
    (respects : Respects grammar matched holds) {name : Nonterminal}
    {segments : List Span} {used : List Edge}
    (derives : grammar.Derives graph name segments used) :
    Describes graph matched holds name segments used := by
  induction derives with
  | @basic rule edge member edgeMember label =>
      rcases shape.basic rule member with word | ⟨family, id, rfl⟩
      · exact describes_word word (.single edgeMember)
          (label ▸ respects.letter rule member word)
      · exact describes_opener edgeMember label
  | @prepend rule segments used span source member _ found edgeMember _ induction =>
      obtain ⟨head, body, first⟩ := shape.prepend rule member
      obtain ⟨whole, word, rfl, spells, wordHolds⟩ := induction.spells body
      rw [first] at found ⊢
      cases found
      exact describes_word head ((Spells.single edgeMember).append spells)
        (respects.prepend rule member wordHolds)
  | @append rule segments used span target member _ found edgeMember _ induction =>
      obtain ⟨head, body, first⟩ := shape.append rule member
      obtain ⟨whole, word, rfl, spells, wordHolds⟩ := induction.spells body
      rw [first] at found ⊢
      cases found
      refine describes_word head ((spells.append (.single edgeMember)).uses fun edge inUsed => ?_)
        (respects.append rule member wordHolds)
      simpa [or_comm] using inUsed
  | @insert rule segments used edge member _ _ edgeMember label _ induction =>
      obtain ⟨family, id, isMatched, rfl⟩ := shape.insert rule member
      obtain ⟨opened, openedMember, openedLabel, rfl, uses⟩ := induction.opener family id rfl
      refine describes_pair isMatched openedMember edgeMember openedLabel label fun other inUsed => ?_
      exact (List.mem_cons.mp inUsed).elim Or.inr fun later => Or.inl (uses other later)
  | @concatenate rule result segments used member _ _ connects _ induction =>
      cases shape.concatenate rule member with
      | sequence head leftWord rightWord =>
          exact describes_sequence respects member head leftWord rightWord connects
            (induction 0 _ rfl) (induction 1 _ rfl)
      | wrap family head innerWord =>
          exact describes_wrap respects member head innerWord connects
            (induction 0 _ rfl) (induction 1 _ rfl)
      | rename head sourceWord =>
          exact describes_rename respects member head sourceWord connects (induction 0 _ rfl)

/-- Behind every span that a bracket grammar derives for a name of words there is
a walk with a word of that name over all the edges that the derivation uses. -/
theorem wordWalk_of_derives (shape : WordGrammar grammar matched)
    (respects : Respects grammar matched holds) {name : Nonterminal}
    (isWord : IsWordName name) {span : Span} {used : List Edge}
    (derives : grammar.Derives graph name [span] used) :
    WordWalk graph holds name span used := by
  obtain ⟨other, same, walk⟩ := (describes_of_derives shape respects derives).word isWord
  cases same
  exact walk

end Sound

/-! ## Applying the rules -/

section Apply

variable {grammar : Grammar} {graph : Graph} {name left right inner source : Nonterminal}
  {family : BracketFamily}

theorem derives_sequence (member : sequenceRule name left right ∈ grammar.concatenate)
    {start middle stop : Vertex} {before behind : List Edge}
    (first : grammar.Derives graph left [⟨start, middle⟩] before)
    (second : grammar.Derives graph right [⟨middle, stop⟩] behind) :
    grammar.Derives graph name [⟨start, stop⟩] (before ++ behind) := by
  let segments : Nat → List Span := fun position =>
    if position = 0 then [⟨start, middle⟩] else [⟨middle, stop⟩]
  let used : Nat → List Edge := fun position => if position = 0 then before else behind
  have bodies : ∀ (position : Nat) body,
      (sequenceRule name left right).bodies[position]? = some body →
      grammar.Derives graph body (segments position) (used position) :=
    forall_bodies first second
  have connects : (sequenceRule name left right).Connects segments [⟨start, stop⟩] := by
    refine ⟨?_, ?_, by simp [sequenceRule, SegmentRef.chainSpan?, SegmentRef.span?, segments]⟩
    · intro position inside
      rcases position with _ | _ | position
      · exact Nat.le_refl 1
      · exact Nat.le_refl 1
      · exact absurd inside (Nat.not_lt.mpr (Nat.le_add_left 2 position))
    · simp [sequenceRule, ConcatenationRule.links, ConcatenationRule.neighbours,
        SegmentRef.span?, segments]
  have whole := Grammar.Derives.concatenate segments used member
    (proper_sequenceRule name left right) bodies connects (graph.follows_single _)
  simpa [sequenceRule, used, List.range_succ] using whole

theorem derives_rename (member : renameRule name source ∈ grammar.concatenate)
    {span : Span} {used : List Edge}
    (derives : grammar.Derives graph source [span] used) :
    grammar.Derives graph name [span] used := by
  have bodies : ∀ (position : Nat) body,
      (renameRule name source).bodies[position]? = some body →
      grammar.Derives graph body [span] used :=
    forall_body derives
  have connects : (renameRule name source).Connects (fun _ => [span]) [span] := by
    refine ⟨?_, ?_, by simp [renameRule, SegmentRef.chainSpan?, SegmentRef.span?]⟩
    · intro position inside
      cases position with
      | zero => exact Nat.le_refl 1
      | succ position => simp [renameRule] at inside
    · simp [renameRule, ConcatenationRule.links, ConcatenationRule.neighbours]
  have whole := Grammar.Derives.concatenate (fun _ => [span]) (fun _ => used) member
    (proper_renameRule name source) bodies connects (graph.follows_single _)
  simpa [renameRule, List.range_succ] using whole

/-- A word between a matched pair of edges that can follow each other is wrapped. -/
theorem derives_wrap (member : wrapRule name inner family ∈ grammar.concatenate) {id : Nat}
    (openerMember : openerRule family id ∈ grammar.basic)
    (pairMember : pairRule family id ∈ grammar.insert) {opened closed : Edge}
    (openedMember : opened ∈ graph.edges) (closedMember : closed ∈ graph.edges)
    (openedLabel : opened.label = family.openLabel id)
    (closedLabel : closed.label = family.closeLabel id)
    (reaches : (Components.ofGraph graph).reaches opened.target closed.source = true)
    {used : List Edge}
    (derives : grammar.Derives graph inner [⟨opened.target, closed.source⟩] used) :
    grammar.Derives graph name [⟨opened.source, closed.target⟩] (used ++ [closed, opened]) := by
  have opener := @Grammar.Derives.basic grammar graph _ _ openerMember openedMember openedLabel
  have follows : graph.Follows
      [⟨opened.source, opened.target⟩, ⟨closed.source, closed.target⟩] := by
    intro pair inPairs
    simp only [List.tail_cons, List.zip_cons_cons, List.zip_nil_right,
      List.mem_singleton] at inPairs
    rw [inPairs]
    exact reaches
  have pair : grammar.Derives graph (pairName family)
      [⟨opened.source, opened.target⟩, ⟨closed.source, closed.target⟩] [closed, opened] :=
    Grammar.Derives.insert pairMember opener (Nat.le_refl 1) closedMember closedLabel follows
  let segments : Nat → List Span := fun position =>
    if position = 0 then [⟨opened.target, closed.source⟩]
    else [⟨opened.source, opened.target⟩, ⟨closed.source, closed.target⟩]
  let uses : Nat → List Edge := fun position =>
    if position = 0 then used else [closed, opened]
  have bodies : ∀ (position : Nat) body,
      (wrapRule name inner family).bodies[position]? = some body →
      grammar.Derives graph body (segments position) (uses position) :=
    forall_bodies derives pair
  have connects : (wrapRule name inner family).Connects segments
      [⟨opened.source, closed.target⟩] := by
    refine ⟨?_, ?_, by simp [wrapRule, SegmentRef.chainSpan?, SegmentRef.span?, segments]⟩
    · intro position inside
      rcases position with _ | _ | position
      · exact Nat.le_refl 1
      · exact Nat.le_refl 2
      · exact absurd inside (Nat.not_lt.mpr (Nat.le_add_left 2 position))
    · simp [wrapRule, ConcatenationRule.links, ConcatenationRule.neighbours,
        SegmentRef.span?, segments]
  have whole := Grammar.Derives.concatenate segments uses member
    (proper_wrapRule name inner family) bodies connects (graph.follows_single _)
  simpa [wrapRule, uses, List.range_succ] using whole

end Apply

end BracketLanguage

end GrammarReach
