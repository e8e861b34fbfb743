import GrammarReach.Graph.Content
import GrammarReach.Proofs.Bracket.ComponentGraphs
import Mathlib.Data.List.Sort

/-!
# Content texts

The content text of a graph is read back edge by edge as long as no label spells the end of
one key and the beginning of another.  A label that does stands for two edges at once, so the
texts of two graphs agree exactly if the graphs come apart into the same edges.
-/

namespace GrammarReach

namespace Text

/-! ## Sorted texts and their bytes -/

theorem sorted_eq_insertionSort (texts : List String) :
    sorted texts = texts.insertionSort (· ≤ ·) := by
  have inserted : ∀ (text : String) (others : List String),
      insertSorted text others = others.orderedInsert (· ≤ ·) text := by
    intro text others
    induction others with
    | nil => rfl
    | cons first others induction => rw [insertSorted, List.orderedInsert_cons, induction]
  induction texts with
  | nil => rfl
  | cons text texts induction =>
      rw [List.insertionSort_cons, ← induction, ← inserted]
      rfl

theorem bytesOf_injective {left right : String} (same : bytesOf left = bytesOf right) :
    left = right := by
  have encoded : left.toList.utf8Encode = right.toList.utf8Encode :=
    congrArg List.toByteArray same
  rw [String.utf8Encode_toList, String.utf8Encode_toList] at encoded
  exact String.toByteArray_inj.mp encoded

/-! ## The beginning of a key -/

/-- What stands before the label in the key of an edge. -/
def keyHead (source target : Vertex) : List Char :=
  (decimal source).toList ++ '-' :: '>' :: ((decimal target).toList ++ ['['])

private theorem decimal_append_cons {first second : Nat} {mark : Char} {rest others : List Char}
    (noDigit : mark.isDigit = false)
    (same : (decimal first).toList ++ mark :: rest = (decimal second).toList ++ mark :: others) :
    first = second ∧ rest = others := by
  have digits : ∀ (number : Nat) (rest : List Char),
      ((decimal number).toList ++ mark :: rest).takeWhile Char.isDigit =
        (decimal number).toList := by
    intro number rest
    rw [List.takeWhile_append_of_pos fun _ member => isDigit_of_mem_decimal member,
      List.takeWhile_cons_of_neg (by simp [noDigit]), List.append_nil]
  have sameDigits : (decimal first).toList = (decimal second).toList := by
    rw [← digits first rest, same, digits]
  obtain ⟨_, sameRest⟩ := List.append_inj same (congrArg List.length sameDigits)
  exact ⟨decimal_injective (String.toList_inj.mp sameDigits), (List.cons.inj sameRest).2⟩

theorem keyHead_append_inj {source target otherSource otherTarget : Vertex}
    {rest others : List Char}
    (same : keyHead source target ++ rest = keyHead otherSource otherTarget ++ others) :
    source = otherSource ∧ target = otherTarget ∧ rest = others := by
  simp only [keyHead, List.append_assoc, List.cons_append, List.nil_append] at same
  obtain ⟨sameSource, afterArrow⟩ := decimal_append_cons (by decide) same
  obtain ⟨sameTarget, sameRest⟩ :=
    decimal_append_cons (by decide) (List.cons.inj afterArrow).2
  exact ⟨sameSource, sameTarget, sameRest⟩

theorem closing_notMem_keyHead (source target : Vertex) : ']' ∉ keyHead source target := by
  have notDigit : ∀ number, ']' ∉ (decimal number).toList := fun number member =>
    absurd (isDigit_of_mem_decimal member) (by decide)
  simp [keyHead, notDigit]

theorem readNumeral_of_closing_mem {bound : Nat} {digits : List Char}
    (member : ']' ∈ digits) : readNumeral bound digits = none := by
  have inDigits : ']' ∈ dropPlus digits := by
    unfold dropPlus
    split
    · simpa using member
    · exact member
  have noNumeral : (dropPlus digits).all Char.isDigit = false :=
    List.all_eq_false.mpr ⟨']', inDigits, by decide⟩
  simp [readNumeral, noNumeral]

end Text

theorem BracketLabel.read_of_closing_mem {label : Label} (member : ']' ∈ label.toList) :
    read label = .other label := by
  have notEpsilon : label ≠ Grammar.epsilon := by
    rintro rfl
    simp [Grammar.epsilon] at member
  have notNormal : label ≠ normalLabel := by
    rintro rfl
    simp [normalLabel] at member
  rw [read, if_neg notEpsilon, if_neg notNormal]
  split
  · rename_i role tag digits characters
    rw [characters] at member
    have place : role = ']' ∨ tag = ']' ∨ ']' ∈ digits := by simpa [eq_comm] using member
    rcases place with rfl | rfl | inDigits
    · cases BracketFamily.ofTag tag <;> cases Text.readNumeral Text.halfWordBound digits <;> rfl
    · rfl
    · rw [Text.readNumeral_of_closing_mem inDigits]
      cases BracketFamily.ofTag tag <;> rfl
  · rfl

namespace Edge

/-! ## Labels that spell edges -/

/-- The label holds no end of a key with the beginning of another key behind it. -/
def IsPlain (edge : Edge) : Prop :=
  ∀ before source target after,
    edge.label.toList ≠ before ++ ']' :: ' ' :: (Text.keyHead source target ++ after)

/-- The edge whose key is made of the keys of two edges. -/
def joined (first second : Edge) : Edge where
  source := first.source
  target := first.target
  label := first.label ++ "] " ++ Text.decimal second.source ++ "->" ++
    Text.decimal second.target ++ "[" ++ second.label

theorem toList_contentKey (edge : Edge) :
    edge.contentKey.toList =
      Text.keyHead edge.source edge.target ++ (edge.label.toList ++ [']']) := by
  simp [contentKey, Text.keyHead]

theorem contentKey_joined (first second : Edge) :
    (first.joined second).contentKey = first.contentKey ++ " " ++ second.contentKey := by
  apply String.toList_inj.mp
  simp [contentKey, joined]

theorem isPlain_of_notMem {edge : Edge} (absent : ']' ∉ edge.label.toList) : edge.IsPlain := by
  intro before source target after spelled
  exact absent (by simp [spelled])

theorem exists_joined {edge : Edge} (notPlain : ¬ edge.IsPlain) :
    ∃ first second, edge = joined first second := by
  simp only [IsPlain, ne_eq, not_forall, not_not] at notPlain
  obtain ⟨before, source, target, after, spelled⟩ := notPlain
  refine ⟨⟨edge.source, edge.target, String.ofList before⟩,
    ⟨source, target, String.ofList after⟩, ?_⟩
  have sameLabel : edge.label = (joined ⟨edge.source, edge.target, String.ofList before⟩
      ⟨source, target, String.ofList after⟩).label := by
    apply String.toList_inj.mp
    simp [joined, spelled, Text.keyHead]
  exact congrArg (Edge.mk edge.source edge.target) sameLabel

end Edge

/-! ## Reading keys back -/

/-- The keys of some edges, each with a space behind it. -/
def Edge.keysText (edges : List Edge) : String :=
  String.join (edges.map fun edge => edge.contentKey ++ " ")

namespace Edge

theorem toList_keysText_cons (edge : Edge) (edges : List Edge) :
    (keysText (edge :: edges)).toList = Text.keyHead edge.source edge.target ++
      (edge.label.toList ++ ']' :: ' ' :: (keysText edges).toList) := by
  rw [keysText, List.map_cons, String.join_cons, String.toList_append, String.toList_append,
    toList_contentKey]
  simp [keysText]

private theorem eq_nil_of_plain {edge : Edge} (plain : edge.IsPlain) {before extra : List Char}
    {edges others : List Edge} (label : edge.label.toList = before ++ extra)
    (same : ']' :: ' ' :: (keysText edges).toList =
      extra ++ ']' :: ' ' :: (keysText others).toList) : extra = [] := by
  match extra, same with
  | [], _ => rfl
  | [mark], same => simp at same
  | mark :: blank :: extra, same =>
      simp only [List.cons_append, List.cons.injEq] at same
      obtain ⟨rfl, rfl, same⟩ := same
      exfalso
      cases edges with
      | nil => simp [keysText] at same
      | cons next edges =>
          rw [toList_keysText_cons] at same
          rcases List.append_eq_append_iff.mp same with ⟨inner, head, _⟩ | ⟨inner, head, rest⟩
          · exact plain before next.source next.target inner (by rw [label, head])
          · cases inner with
            | nil =>
                rw [List.append_nil] at head
                exact plain before next.source next.target [] (by rw [label, head]; simp)
            | cons mark inner =>
                have closing := (List.cons.inj rest).1
                refine Text.closing_notMem_keyHead next.source next.target ?_
                rw [head, closing]
                simp

theorem keysText_injective {edges others : List Edge} (plain : ∀ edge ∈ edges, edge.IsPlain)
    (othersPlain : ∀ edge ∈ others, edge.IsPlain) (same : keysText edges = keysText others) :
    edges = others := by
  induction edges generalizing others with
  | nil =>
      cases others with
      | nil => rfl
      | cons other others =>
          have sameText := congrArg String.toList same
          rw [toList_keysText_cons] at sameText
          simp [keysText] at sameText
  | cons edge edges induction =>
      cases others with
      | nil =>
          have sameText := congrArg String.toList same
          rw [toList_keysText_cons] at sameText
          simp [keysText] at sameText
      | cons other others =>
          have sameText := congrArg String.toList same
          rw [toList_keysText_cons, toList_keysText_cons] at sameText
          obtain ⟨sameSource, sameTarget, rest⟩ := Text.keyHead_append_inj sameText
          obtain ⟨sameLabel, sameRest⟩ : edge.label.toList = other.label.toList ∧
              (keysText edges).toList = (keysText others).toList := by
            rcases List.append_eq_append_iff.mp rest with
              ⟨extra, label, tail⟩ | ⟨extra, label, tail⟩
            · have none := eq_nil_of_plain (othersPlain other (by simp)) label tail
              simp_all
            · have none := eq_nil_of_plain (plain edge (by simp)) label tail
              simp_all
          have sameEdge : edge = other := by
            have := String.toList_inj.mp sameLabel
            cases edge
            cases other
            simp_all
          rw [sameEdge, induction (fun edge member => plain edge (by simp [member]))
            (fun edge member => othersPlain edge (by simp [member]))
            (String.toList_inj.mp sameRest)]

/-! ## Taking edges apart -/

/-- Edges come apart as edges whose labels spell a further edge are divided, from the first
edge on. -/
inductive ComeApart : List Edge → List Edge → Prop
  | nil : ComeApart [] []
  | keep {edge : Edge} {edges parts : List Edge} (later : ComeApart edges parts) :
      ComeApart (edge :: edges) (edge :: parts)
  | divide {first second : Edge} {edges parts : List Edge}
      (later : ComeApart (first :: second :: edges) parts) :
      ComeApart (first.joined second :: edges) parts

theorem ComeApart.keysText {edges parts : List Edge} (apart : ComeApart edges parts) :
    keysText edges = keysText parts := by
  induction apart with
  | nil => rfl
  | @keep edge edges parts _ induction =>
      rw [Edge.keysText, Edge.keysText] at induction ⊢
      rw [List.map_cons, List.map_cons, String.join_cons, String.join_cons, induction]
  | @divide first second edges parts _ induction =>
      rw [← induction, Edge.keysText, Edge.keysText]
      simp only [List.map_cons, String.join_cons, contentKey_joined, String.append_assoc]

private theorem length_label_joined (first second : Edge) :
    first.label.length + second.label.length + 2 < (first.joined second).label.length + 1 := by
  have marks : "] ".length = 2 := rfl
  simp only [joined, String.length_append, marks]
  omega

theorem exists_comeApart (edges : List Edge) :
    ∃ parts, ComeApart edges parts ∧ ∀ edge ∈ parts, edge.IsPlain := by
  match edges with
  | [] => exact ⟨[], .nil, by simp⟩
  | edge :: edges =>
      by_cases plain : edge.IsPlain
      · obtain ⟨parts, apart, partsPlain⟩ := exists_comeApart edges
        exact ⟨edge :: parts, .keep apart, by simpa using ⟨plain, partsPlain⟩⟩
      · obtain ⟨first, second, rfl⟩ := exists_joined plain
        have shorter := length_label_joined first second
        obtain ⟨parts, apart, partsPlain⟩ := exists_comeApart (first :: second :: edges)
        exact ⟨parts, .divide apart, partsPlain⟩
termination_by (edges.map fun edge => edge.label.length + 1).sum
decreasing_by
  all_goals simp_all
  omega

theorem keysText_eq_iff {edges others : List Edge} :
    keysText edges = keysText others ↔
      ∃ parts, ComeApart edges parts ∧ ComeApart others parts := by
  constructor
  · intro same
    obtain ⟨parts, apart, plain⟩ := exists_comeApart edges
    obtain ⟨otherParts, otherApart, otherPlain⟩ := exists_comeApart others
    have sameParts := keysText_injective plain otherPlain
      (apart.keysText.symm.trans (same.trans otherApart.keysText))
    exact ⟨parts, apart, sameParts ▸ otherApart⟩
  · rintro ⟨parts, apart, otherApart⟩
    exact apart.keysText.trans otherApart.keysText.symm

end Edge

/-! ## Texts of graphs -/

namespace Graph

/-- The labelled edges in the order of their keys. -/
def contentEdges (graph : Graph) : List Edge :=
  graph.labelledEdges.insertionSort fun first second => first.contentKey ≤ second.contentKey

theorem contentText_eq (graph : Graph) :
    graph.contentText = Edge.keysText graph.contentEdges := by
  have keys : graph.contentEdges.map Edge.contentKey =
      (graph.labelledEdges.map Edge.contentKey).insertionSort (· ≤ ·) :=
    List.map_insertionSort _ _ _ _ fun _ _ _ _ => Iff.rfl
  rw [contentText, Text.sorted_eq_insertionSort, ← keys, List.map_map]
  rfl

theorem mem_contentEdges {graph : Graph} {edge : Edge} :
    edge ∈ graph.contentEdges ↔ edge ∈ graph.labelledEdges :=
  List.mem_insertionSort _

theorem contentText_of_perm {graph other : Graph}
    (same : graph.labelledEdges.Perm other.labelledEdges) :
    graph.contentText = other.contentText := by
  have sorted : (graph.labelledEdges.map Edge.contentKey).insertionSort (· ≤ ·) =
      (other.labelledEdges.map Edge.contentKey).insertionSort (· ≤ ·) :=
    List.Perm.eq_of_pairwise' (List.pairwise_insertionSort _ _) (List.pairwise_insertionSort _ _)
      ((List.perm_insertionSort _ _).trans
        ((same.map _).trans (List.perm_insertionSort _ _).symm))
  rw [contentText, contentText, Text.sorted_eq_insertionSort, Text.sorted_eq_insertionSort, sorted]

theorem contentText_eq_iff_perm {graph other : Graph}
    (plain : ∀ edge ∈ graph.labelledEdges, edge.IsPlain)
    (otherPlain : ∀ edge ∈ other.labelledEdges, edge.IsPlain) :
    graph.contentText = other.contentText ↔ graph.labelledEdges.Perm other.labelledEdges := by
  refine ⟨fun same => ?_, contentText_of_perm⟩
  rw [contentText_eq, contentText_eq] at same
  have sameEdges : graph.contentEdges = other.contentEdges :=
    Edge.keysText_injective (fun edge member => plain edge (mem_contentEdges.mp member))
      (fun edge member => otherPlain edge (mem_contentEdges.mp member)) same
  exact (List.perm_insertionSort _ _).symm.trans
    ((List.Perm.of_eq sameEdges).trans (List.perm_insertionSort _ _))

theorem isPlain_of_keepsLabel {brackets : List (BracketFamily × Nat)} {edge : Edge}
    (keeps : keepsLabel brackets edge.label = true) : edge.IsPlain := by
  refine Edge.isPlain_of_notMem fun member => ?_
  simp [keepsLabel, BracketLabel.read_of_closing_mem member] at keeps

theorem isPlain_of_mem_matchedBrackets {graph : Graph} {edge : Edge}
    (member : edge ∈ graph.matchedBrackets.graph.labelledEdges) : edge.IsPlain :=
  isPlain_of_keepsLabel (mem_labelledEdges_matchedBrackets.mp member).2

/-- The bytes behind the hash are the same for two graphs exactly if their labelled edges come
apart into the same ones.  Graphs whose labels spell no further edge, among them all graphs
of matched brackets, have the same bytes exactly if they have the same labelled edges. -/
theorem contentBytes_eq_iff (graph other : Graph) :
    (Text.bytesOf graph.contentText = Text.bytesOf other.contentText ↔
      ∃ parts, Edge.ComeApart graph.contentEdges parts ∧
        Edge.ComeApart other.contentEdges parts) ∧
    ((∀ edge ∈ graph.labelledEdges ++ other.labelledEdges, edge.IsPlain) →
      (Text.bytesOf graph.contentText = Text.bytesOf other.contentText ↔
        graph.labelledEdges.Perm other.labelledEdges)) ∧
    (Text.bytesOf graph.matchedBrackets.graph.contentText =
        Text.bytesOf other.matchedBrackets.graph.contentText ↔
      graph.matchedBrackets.graph.labelledEdges.Perm
        other.matchedBrackets.graph.labelledEdges) := by
  have bytes : ∀ {left right : String}, Text.bytesOf left = Text.bytesOf right ↔ left = right :=
    ⟨Text.bytesOf_injective, congrArg _⟩
  rw [bytes, bytes]
  refine ⟨?_, fun plain => ?_, ?_⟩
  · rw [contentText_eq, contentText_eq]
    exact Edge.keysText_eq_iff
  · rw [List.forall_mem_append] at plain
    exact contentText_eq_iff_perm plain.1 plain.2
  · exact contentText_eq_iff_perm (fun _ => isPlain_of_mem_matchedBrackets)
      fun _ => isPlain_of_mem_matchedBrackets

/-- Two edges and one edge whose label spells both have the same bytes. -/
theorem contentBytes_twoInOne :
    Text.bytesOf (ofEdges [⟨0, 1, "normal"⟩, ⟨1, 2, "normal"⟩]).contentText =
        Text.bytesOf (ofEdges [⟨0, 1, "normal] 1->2[normal"⟩]).contentText ∧
      ¬ (ofEdges [⟨0, 1, "normal"⟩, ⟨1, 2, "normal"⟩]).labelledEdges.Perm
        (ofEdges [⟨0, 1, "normal] 1->2[normal"⟩]).labelledEdges := by
  decide +kernel

end Graph

end GrammarReach
