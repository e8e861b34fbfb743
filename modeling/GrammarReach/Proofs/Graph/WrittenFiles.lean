import GrammarReach.Proofs.Bracket.PaddedLabels
import GrammarReach.Proofs.Graph.ContentTexts
import GrammarReach.Proofs.Graph.RepeatedEdges
import GrammarReach.Proofs.Text.Pieces
import Mathlib.Data.List.TakeWhile

/-!
# Written files

A graph file that is written for a graph that was read has the labelled edges of the graph, one
a line, and is read back as these edges.  No label that was read has a quotation mark or a line
feed, so the line of an edge ends where it was meant to, whatever else the label holds.  Span
files are read back as the spans that were written.
-/

namespace GrammarReach

namespace Text

/-! ## Lines -/

private theorem lines_append {line : List Char} (noFeed : '\n' ∉ line) (rest : List Char) :
    lines (line ++ '\n' :: rest) = dropCarriageReturn line :: lines rest := by
  have unseparated : ∀ character ∈ line, (character == '\n') = false := by
    intro character inside
    rw [beq_eq_false_iff_ne]
    exact ne_of_mem_of_not_mem inside noFeed
  rw [lines, lines, pieces_append unseparated (by rfl)]
  cases later : pieces (· == '\n') rest with
  | nil => exact absurd later (pieces_ne_nil rest)
  | cons next others => rfl

/-- Lines are read from the text that ends each of them with a line feed, unless one has a line
feed itself or ends with a carriage return. -/
theorem lines_flatMap {ls : List (List Char)}
    (valid : ∀ line ∈ ls, '\n' ∉ line ∧ line.getLast? ≠ some '\r') :
    lines (ls.flatMap fun line => line ++ ['\n']) = ls := by
  induction ls with
  | nil => rfl
  | cons line ls induction =>
      obtain ⟨first, later⟩ := List.forall_mem_cons.mp valid
      have whole : dropCarriageReturn line = line := if_neg first.2
      rw [List.flatMap_cons, List.append_assoc, List.singleton_append, lines_append first.1, whole,
        induction later]

theorem not_mem_of_mem_lines {text line : List Char} (member : line ∈ lines text) :
    '\n' ∉ line := by
  have general : ∀ cut : List (List Char), (∀ piece ∈ cut, '\n' ∉ piece) →
      ∀ line ∈ closeLines cut, '\n' ∉ line := by
    intro cut
    induction cut with
    | nil => simp [closeLines]
    | cons piece cut induction =>
        intro none line member
        obtain ⟨first, later⟩ := List.forall_mem_cons.mp none
        cases cut with
        | nil =>
            rw [closeLines] at member
            split at member
            · simp at member
            · rwa [List.mem_singleton.mp member]
        | cons next cut =>
            rw [closeLines] at member
            rcases List.mem_cons.mp member with rfl | inRest
            · unfold dropCarriageReturn
              split
              · exact fun inside => first (List.dropLast_subset piece inside)
              · exact first
            · exact induction later line inRest
            · simp
  refine general _ (fun piece isPiece inside => ?_) line member
  have separates := (of_mem_pieces isPiece '\n' inside).2
  simp at separates

theorem isBlank_of_isDigit {character : Char} (isDigit : character.isDigit = true) :
    isBlank character = false := by
  have range : 48 ≤ character.toNat ∧ character.toNat ≤ 57 := by
    simpa [Char.isDigit, UInt32.le_iff_toNat_le] using isDigit
  simp only [isBlank, Bool.or_eq_false_iff, Bool.and_eq_false_iff, decide_eq_false_iff_not,
    beq_eq_false_iff_ne]
  omega

end Text

namespace Edge

/-! ## Reading edges -/

private theorem eq_append_of_afterBeginning {mark text rest : List Char}
    (success : Text.afterBeginning mark text = some rest) : text = mark ++ rest := by
  induction mark generalizing text with
  | nil => simpa [Text.afterBeginning] using success
  | cons expected mark induction =>
      cases text with
      | nil => cases success
      | cons character text =>
          rw [Text.afterBeginning] at success
          split at success
          · rename_i same
            rw [same, List.cons_append, ← induction success]
          · cases success

private theorem suffix_of_expect {mark : String} {text rest : List Char}
    (success : expect mark text = some rest) : rest <:+ text :=
  have found := eq_append_of_afterBeginning success
  (found ▸ List.suffix_append _ rest : rest <:+ text.dropWhile Text.isBlank).trans
    (List.dropWhile_suffix _)

private theorem suffix_of_readVertex {text rest : List Char} {vertex : Vertex}
    (success : readVertex text = some (vertex, rest)) :
    rest <:+ text ∧ vertex < Text.wordBound := by
  simp only [readVertex, Option.map_eq_some_iff, Prod.mk.injEq] at success
  obtain ⟨number, numeral, rfl, rfl⟩ := success
  exact ⟨(List.dropWhile_suffix _).trans (List.dropWhile_suffix _),
    (Text.readNumeral_eq_some_iff.mp numeral).1⟩

/-- The ends of an edge that was read are machine words, and its label has characters of the
line only and no quotation marks. -/
theorem of_read {line : List Char} {edge : Edge} (success : read line = some edge) :
    edge.source < Text.wordBound ∧ edge.target < Text.wordBound ∧
      ∀ character ∈ edge.label.toList, character ∈ line ∧ character ≠ '\x22' := by
  simp only [read, Option.bind_eq_bind, Option.bind_eq_some_iff, Option.pure_def,
    Option.some.injEq, Prod.exists] at success
  obtain ⟨source, afterSource, isSource, afterArrow, isArrow, target, afterTarget, isTarget,
    afterBracket, isBracket, afterName, isName, afterSign, isSign, afterQuote, isQuote, _, _, _, _,
    rfl⟩ := success
  obtain ⟨first, sourceBelow⟩ := suffix_of_readVertex isSource
  obtain ⟨third, targetBelow⟩ := suffix_of_readVertex isTarget
  have inLine : afterQuote <:+ line :=
    (suffix_of_expect isQuote).trans <| (suffix_of_expect isSign).trans <|
      (suffix_of_expect isName).trans <| (suffix_of_expect isBracket).trans <|
      third.trans <| (suffix_of_expect isArrow).trans first
  refine ⟨sourceBelow, targetBelow, fun character inLabel => ?_⟩
  rw [String.toList_ofList] at inLabel
  have unquoted := List.mem_takeWhile_imp inLabel
  exact ⟨inLine.subset ((List.takeWhile_prefix _).subset inLabel), by simpa using unquoted⟩

/-! ## Reading written edges -/

private theorem readVertex_decimal {vertex : Vertex} (below : vertex < Text.wordBound)
    {mark : Char} (noDigit : mark.isDigit = false) (rest : List Char) :
    readVertex ((Text.decimal vertex).toList ++ mark :: rest) = some (vertex, mark :: rest) := by
  have digits : ∀ digit ∈ (Text.decimal vertex).toList, digit.isDigit = true := fun _ member =>
    Text.isDigit_of_mem_decimal member
  have noBlank : ((Text.decimal vertex).toList ++ mark :: rest).dropWhile Text.isBlank =
      (Text.decimal vertex).toList ++ mark :: rest := by
    cases characters : (Text.decimal vertex).toList with
    | nil => simp [Text.toList_decimal, Nat.toDigits_ne_nil] at characters
    | cons first others =>
        have visible := Text.isBlank_of_isDigit (digits first (by simp [characters]))
        rw [List.cons_append, List.dropWhile_cons_of_neg (by simp [visible])]
  rw [readVertex, noBlank, List.takeWhile_append_of_pos digits,
    List.takeWhile_cons_of_neg (by simp [noDigit]), List.append_nil, Text.readNumeral_decimal,
    if_pos below, List.dropWhile_append_of_pos digits, List.dropWhile_cons_of_neg (by simp [noDigit])]
  rfl

private theorem expect_append (mark : String) (first : Char) (others : List Char)
    (characters : mark.toList = first :: others) (visible : Text.isBlank first = false)
    (rest : List Char) : expect mark (first :: (others ++ rest)) = some rest := by
  have found : ∀ mark : List Char, Text.afterBeginning mark (mark ++ rest) = some rest := by
    intro mark
    induction mark with
    | nil => rfl
    | cons character mark induction => simpa [Text.afterBeginning] using induction
  rw [expect, List.dropWhile_cons_of_neg (by simp [visible]), characters, ← List.cons_append, found]

theorem toList_text (edge : Edge) : edge.text.toList =
    (Text.decimal edge.source).toList ++ '-' :: '>' :: ((Text.decimal edge.target).toList ++
      '[' :: 'l' :: 'a' :: 'b' :: 'e' :: 'l' :: '=' :: '\x22' ::
        (edge.label.toList ++ ['\x22', ']'])) := by
  simp [text]

/-- The written form of an edge is read as the edge when its ends are machine words and its
label has no quotation mark. -/
theorem read_text {edge : Edge} (source : edge.source < Text.wordBound)
    (target : edge.target < Text.wordBound) (unquoted : '\x22' ∉ edge.label.toList) :
    read edge.text.toList = some edge := by
  have inLabel : ∀ character ∈ edge.label.toList, (character != '\x22') = true := by
    intro character inside
    simpa using ne_of_mem_of_not_mem inside unquoted
  have quoted : (edge.label.toList ++ ['\x22', ']']).takeWhile (· != '\x22') =
      edge.label.toList := by
    rw [List.takeWhile_append_of_pos inLabel, List.takeWhile_cons_of_neg (by simp),
      List.append_nil]
  have afterLabel : (edge.label.toList ++ ['\x22', ']']).dropWhile (· != '\x22') =
      ['\x22', ']'] := by
    rw [List.dropWhile_append_of_pos inLabel, List.dropWhile_cons_of_neg (by simp)]
  have arrow := expect_append "->" '-' ['>'] rfl (by decide)
  have bracket := expect_append "[" '[' [] rfl (by decide)
  have name := expect_append "label" 'l' ['a', 'b', 'e', 'l'] rfl (by decide)
  have sign := expect_append "=" '=' [] rfl (by decide)
  have quote := expect_append "\x22" '\x22' [] rfl (by decide)
  have close := expect_append "]" ']' [] rfl (by decide)
  simp only [List.cons_append, List.nil_append] at arrow bracket name sign quote close
  simp only [read, toList_text, readVertex_decimal source (by decide : '-'.isDigit = false),
    readVertex_decimal target (by decide : '['.isDigit = false), arrow, bracket, name, sign, quote,
    close, quoted, afterLabel, String.ofList_toList, Option.bind_eq_bind, Option.bind_some,
    Option.pure_def]

end Edge

namespace Graph

/-! ## Graph files -/

theorem newEdges_sublist (graph : Graph) (edges : List Edge) :
    (graph.newEdges edges).Sublist edges := by
  induction edges generalizing graph with
  | nil => exact .slnil
  | cons edge edges induction =>
      rw [newEdges]
      split
      · exact (induction graph).cons edge
      · exact (induction (graph.add edge)).cons_cons edge

private theorem Built.newEdges_eq_self {graph : Graph} (built : graph.Built) {edges : List Edge}
    (distinct : edges.Nodup) (missing : ∀ edge ∈ edges, edge ∉ graph.edges)
    (labelled : ∀ edge ∈ edges, edge.isEpsilon = false) : graph.newEdges edges = edges := by
  induction edges generalizing graph with
  | nil => rfl
  | cons edge edges induction =>
      obtain ⟨once, laterDistinct⟩ := List.nodup_cons.mp distinct
      obtain ⟨fresh, laterMissing⟩ := List.forall_mem_cons.mp missing
      obtain ⟨_, laterLabelled⟩ := List.forall_mem_cons.mp labelled
      have unknown : graph.containsEdge edge ≠ true := fun known =>
        fresh (built.indexed.containsEdge_iff.mp known)
      rw [newEdges, if_neg unknown, induction (.add edge built) laterDistinct _ laterLabelled]
      intro other member
      have proper := laterLabelled other member
      rw [built.closed.mem_add]
      rintro (old | rfl | rfl | rfl)
      · exact laterMissing other member old
      · exact once member
      · simp [Edge.isEpsilon, Edge.loopAt] at proper
      · simp [Edge.isEpsilon, Edge.loopAt] at proper

theorem labelledEdges_ofDistinctEdges (edges : List Edge) :
    (ofDistinctEdges edges).labelledEdges =
      (empty.newEdges edges).filter fun edge => !edge.isEpsilon := by
  rw [ofDistinctEdges_eq_newEdges, labelledEdges_ofEdges]

/-- The labelled edges of a graph without repeats make a graph in which they are listed as
before. -/
theorem ofDistinctEdges_labelledEdges (edges : List Edge) :
    ofDistinctEdges (ofDistinctEdges edges).labelledEdges =
      ofEdges (ofDistinctEdges edges).labelledEdges := by
  have labelled : ∀ edge ∈ (ofDistinctEdges edges).labelledEdges, edge.isEpsilon = false :=
    fun edge member => (mem_labelledEdges.mp member).2
  have distinct : (ofDistinctEdges edges).labelledEdges.Nodup := by
    rw [labelledEdges_ofDistinctEdges]
    exact (Built.empty.nodup_newEdges edges).filter _
  rw [ofDistinctEdges_eq_newEdges, Built.empty.newEdges_eq_self distinct (by simp [empty]) labelled]

private theorem skipped_foldl {style : LabelStyle} {ls : List (List Char)}
    (edges : ∀ line ∈ ls, (Edge.read line).isSome) (reading : GraphReading) :
    (ls.foldl (GraphReading.takeLine style) reading).skipped = reading.skipped := by
  induction ls generalizing reading with
  | nil => rfl
  | cons line ls induction =>
      obtain ⟨first, later⟩ := List.forall_mem_cons.mp edges
      obtain ⟨edge, success⟩ := Option.isSome_iff_exists.mp first
      rw [List.foldl_cons, induction later, GraphReading.takeLine, success]

private theorem writable_of_readAll {text : String} {edge : Edge}
    (member : edge ∈ Edge.readAll .raw text) :
    edge.source < Text.wordBound ∧ edge.target < Text.wordBound ∧
      '\x22' ∉ edge.label.toList ∧ '\n' ∉ edge.label.toList := by
  obtain ⟨line, isLine, success⟩ := List.mem_filterMap.mp member
  obtain ⟨read, isRead, rfl⟩ := Option.map_eq_some_iff.mp success
  obtain ⟨source, target, characters⟩ := Edge.of_read isRead
  refine ⟨source, target, fun quote => (characters _ quote).2 rfl, fun feed => ?_⟩
  exact Text.not_mem_of_mem_lines isLine (characters _ feed).1

private theorem lines_text {graph : Graph}
    (writable : ∀ edge ∈ graph.labelledEdges, '\n' ∉ edge.label.toList) :
    Text.lines graph.text.toList = graph.labelledEdges.map fun edge => edge.text.toList := by
  have characters : graph.text.toList =
      (graph.labelledEdges.map fun edge => edge.text.toList).flatMap fun line => line ++ ['\n'] := by
    simp [Graph.text, String.toList_join, List.flatMap_map]
  rw [characters]
  refine Text.lines_flatMap fun line isLine => ?_
  obtain ⟨edge, member, rfl⟩ := List.mem_map.mp isLine
  have noFeed := writable edge member
  have notDigit : ∀ number, '\n' ∉ (Text.decimal number).toList := fun number inside =>
    absurd (Text.isDigit_of_mem_decimal inside) (by decide)
  rw [Edge.toList_text]
  exact ⟨by simp [notDigit, noFeed], by simp [List.getLast?_append, List.getLast?_cons]⟩

/-- The graph is read back from its file: no line is skipped, and the graph that is read has the
same labelled edges in the same order, besides the loops of their ends. -/
structure ReadsBack (graph : Graph) : Prop where
  skipped : (Graph.read .raw graph.text).skipped = 0
  labelledEdges : (Graph.read .raw graph.text).graph.labelledEdges = graph.labelledEdges
  loops : ∀ edge ∈ (Graph.read .raw graph.text).graph.edges, edge.isEpsilon = true →
    edge.isEpsilonLoop = true
  contentHash : (Graph.read .raw graph.text).graph.contentHash = graph.contentHash

theorem graph_read_text (text : String) :
    (Graph.read .raw (Graph.read .raw text).graph.text).skipped = 0 ∧
      (Graph.read .raw (Graph.read .raw text).graph.text).graph =
        ofEdges (Graph.read .raw text).graph.labelledEdges := by
  have writable : ∀ edge ∈ (Graph.read .raw text).graph.labelledEdges,
      edge.source < Text.wordBound ∧ edge.target < Text.wordBound ∧
        '\x22' ∉ edge.label.toList ∧ '\n' ∉ edge.label.toList := by
    intro edge member
    rw [graph_read] at member
    exact writable_of_readAll (mem_labelledEdges_ofDistinctEdges.mp member).1
  have written := lines_text fun edge member => (writable edge member).2.2.2
  have readBack : ∀ edge ∈ (Graph.read .raw text).graph.labelledEdges,
      Edge.read edge.text.toList = some edge := fun edge member =>
    have ⟨source, target, unquoted, _⟩ := writable edge member
    Edge.read_text source target unquoted
  constructor
  · rw [Graph.read, written]
    refine skipped_foldl (fun line isLine => ?_) {}
    obtain ⟨edge, member, rfl⟩ := List.mem_map.mp isLine
    rw [readBack edge member]
    rfl
  · have edges : Edge.readAll .raw (Graph.read .raw text).graph.text =
        (Graph.read .raw text).graph.labelledEdges := by
      rw [Edge.readAll, written, List.filterMap_map]
      refine (List.filterMap_congr fun edge member => ?_).trans List.filterMap_some
      rw [Function.comp_apply, readBack edge member]
      rfl
    rw [graph_read, edges, graph_read]
    exact ofDistinctEdges_labelledEdges _

theorem readsBack_of_read (text : String) : (Graph.read .raw text).graph.ReadsBack := by
  obtain ⟨skipped, again⟩ := graph_read_text text
  have labelled : (Graph.read .raw (Graph.read .raw text).graph.text).graph.labelledEdges =
      (Graph.read .raw text).graph.labelledEdges := by
    rw [again, labelledEdges_ofEdges, Graph.labelledEdges, List.filter_filter]
    simp
  refine ⟨skipped, labelled, fun edge member epsilon => ?_, ?_⟩
  · rw [again, mem_ofEdges] at member
    obtain ⟨other, inGraph, rfl | rfl | rfl⟩ := member
    · simp [(mem_labelledEdges.mp inGraph).2] at epsilon
    · simp
    · simp
  · rw [contentHash, contentHash, contentText, contentText, labelled]

theorem read_text_of_labelled {text : String}
    (labelled : ∀ edge ∈ Edge.readAll .raw text, edge.label ≠ Grammar.epsilon) :
    (Graph.read .raw (Graph.read .raw text).graph.text).graph = (Graph.read .raw text).graph := by
  have proper : ∀ edge ∈ empty.newEdges (Edge.readAll .raw text), (!edge.isEpsilon) = true := by
    intro edge member
    simpa [Edge.isEpsilon] using labelled edge ((newEdges_sublist _ _).subset member)
  rw [(graph_read_text text).2, graph_read, labelledEdges_ofDistinctEdges,
    List.filter_eq_self.mpr proper, ← ofDistinctEdges_eq_newEdges]

end Graph

namespace Span

/-! ## Span files -/

/-- Both ends of the span are machine words. -/
def InWords (span : Span) : Prop :=
  span.start < Text.wordBound ∧ span.stop < Text.wordBound

/-- The line of a span. -/
private def writtenLine (span : Span) : List Char :=
  (Text.decimal span.start).toList ++ ' ' :: (Text.decimal span.stop).toList

private theorem readLine_writtenLine {span : Span} (inWords : span.InWords) :
    readLine span.writtenLine = some span := by
  have valid : ∀ word ∈ [(Text.decimal span.start).toList, (Text.decimal span.stop).toList],
      word ≠ [] ∧ ∀ character ∈ word, Text.isBlank character = false := by
    have decimal : ∀ number : Nat, (Text.decimal number).toList ≠ [] ∧
        ∀ character ∈ (Text.decimal number).toList, Text.isBlank character = false := fun _ =>
      ⟨by simp [Text.toList_decimal, Nat.toDigits_ne_nil], fun _ inside =>
        Text.isBlank_of_isDigit (Text.isDigit_of_mem_decimal inside)⟩
    exact List.forall_mem_cons.mpr
      ⟨decimal span.start, List.forall_mem_singleton.mpr (decimal span.stop)⟩
  have words : Text.words span.writtenLine =
      [(Text.decimal span.start).toList, (Text.decimal span.stop).toList] := by
    rw [Text.words, ← Text.fields_intercalate (by decide : Text.isBlank ' ' = true) valid]
    simp [writtenLine]
  simp [readLine, words, Text.readNumeral_decimal, inWords.1, inWords.2]

theorem readList_listText {spans : List Span} (inWords : ∀ span ∈ spans, span.InWords) :
    readList (listText spans) = spans := by
  have characters : (listText spans).toList =
      (spans.map writtenLine).flatMap fun line => line ++ ['\n'] := by
    simp [listText, writtenLine, String.toList_join, List.flatMap_map]
  have valid : ∀ line ∈ spans.map writtenLine, '\n' ∉ line ∧ line.getLast? ≠ some '\r' := by
    intro written isLine
    obtain ⟨span, _, rfl⟩ := List.mem_map.mp isLine
    have notDigit : ∀ number character, character.isDigit = false →
        character ∉ (Text.decimal number).toList := fun number character noDigit inside => by
      rw [Text.isDigit_of_mem_decimal inside] at noDigit
      cases noDigit
    refine ⟨by simp [writtenLine, notDigit], fun last => ?_⟩
    have inside := List.mem_of_getLast? last
    simp [writtenLine, notDigit] at inside
  rw [readList, characters, Text.lines_flatMap valid, List.filterMap_map]
  refine (List.filterMap_congr fun span member => ?_).trans List.filterMap_some
  exact readLine_writtenLine (inWords span member)

end Span

/-- Graph files and span files are read back after they were written: the graph of any text,
which has the edges of its lines, with its labelled edges in order and the same content, without
a skipped line, and unchanged when no edge of the text has the empty label; and all spans
between machine words. -/
theorem written_files_readBack :
    (∀ text, (Graph.read .raw text).graph = .ofDistinctEdges (Edge.readAll .raw text) ∧
      (Graph.read .raw text).graph.ReadsBack ∧
      ((∀ edge ∈ Edge.readAll .raw text, edge.label ≠ Grammar.epsilon) →
        (Graph.read .raw (Graph.read .raw text).graph.text).graph =
          (Graph.read .raw text).graph)) ∧
    ∀ spans, (∀ span ∈ spans, span.InWords) → Span.readList (Span.listText spans) = spans :=
  ⟨fun text => ⟨Graph.graph_read .raw text, Graph.readsBack_of_read text,
      Graph.read_text_of_labelled⟩,
    fun _ => Span.readList_listText⟩

/-- A file with a blank in front of an edge, a label that looks like the end of a line, an edge
twice, and a line without an edge. -/
def crowdedText : String :=
  " 0 -> 1 [ label = \"] 2->3[\r\" ] behind\n0->1[label=\"] 2->3[\r\"]\nno edge\n7->7[label=\"ob--0\"]"

theorem written_files_readBack_crowded :
    (∀ edge ∈ Edge.readAll .raw crowdedText, edge.label ≠ Grammar.epsilon) ∧
      (Graph.read .raw (Graph.read .raw crowdedText).graph.text).graph =
        (Graph.read .raw crowdedText).graph ∧
      Span.InWords ⟨0, 18446744073709551615⟩ ∧
      Span.readList (Span.listText [⟨0, 18446744073709551615⟩]) = [⟨0, 18446744073709551615⟩] := by
  have labelled : ∀ edge ∈ Edge.readAll .raw crowdedText, edge.label ≠ Grammar.epsilon := by
    decide
  have inWords : Span.InWords ⟨0, 18446744073709551615⟩ := ⟨by decide, by decide⟩
  exact ⟨labelled, (written_files_readBack.1 crowdedText).2.2 labelled, inWords,
    written_files_readBack.2 _ (by simpa using inWords)⟩

end GrammarReach
