import GrammarReach.Text.Pieces
import Mathlib.Data.List.Basic

/-!
# Pieces put together again

What a text is cut into, when it was put together from pieces without separators, are
these pieces; and whatever is cut out of a text has characters of that text only.
-/

namespace GrammarReach

namespace Text

section Pieces

variable {isSeparator : Char → Bool}

theorem pieces_cons (character : Char) (rest : List Char) :
    pieces isSeparator (character :: rest) =
      if isSeparator character then [] :: pieces isSeparator rest
      else extendFirst character (pieces isSeparator rest) :=
  rfl

theorem pieces_of_none {word : List Char}
    (none : ∀ character ∈ word, isSeparator character = false) :
    pieces isSeparator word = [word] := by
  induction word with
  | nil => rfl
  | cons character word induction =>
      have later := induction fun other member => none other (by simp [member])
      rw [pieces_cons, none character (by simp), later]
      rfl

theorem pieces_ne_nil (text : List Char) : pieces isSeparator text ≠ [] := by
  cases text with
  | nil => simp [pieces]
  | cons character text =>
      rw [pieces_cons]
      split
      · simp
      · unfold extendFirst
        split <;> simp

theorem pieces_append_pieces {mark : Char} (separates : isSeparator mark = true)
    (before after : List Char) : pieces isSeparator (before ++ mark :: after) =
      pieces isSeparator before ++ pieces isSeparator after := by
  induction before with
  | nil =>
      rw [List.nil_append, pieces_cons, if_pos separates]
      rfl
  | cons character before induction =>
      rw [List.cons_append, pieces_cons, pieces_cons, induction]
      split
      · rfl
      · cases first : pieces isSeparator before with
        | nil => exact absurd first (pieces_ne_nil before)
        | cons piece others => rfl

theorem pieces_append {word rest : List Char} {mark : Char}
    (none : ∀ character ∈ word, isSeparator character = false)
    (separates : isSeparator mark = true) :
    pieces isSeparator (word ++ mark :: rest) = word :: pieces isSeparator rest := by
  induction word with
  | nil => rw [List.nil_append, pieces_cons, if_pos separates]
  | cons character word induction =>
      have later := induction fun other member => none other (by simp [member])
      rw [List.cons_append, pieces_cons, none character (by simp), later]
      rfl

theorem pieces_intercalate {words : List (List Char)} {mark : Char}
    (separates : isSeparator mark = true) (some : words ≠ [])
    (none : ∀ word ∈ words, ∀ character ∈ word, isSeparator character = false) :
    pieces isSeparator ([mark].intercalate words) = words := by
  induction words with
  | nil => exact absurd rfl some
  | cons word words induction =>
      have wordNone := none word (by simp)
      cases words with
      | nil =>
          rw [List.intercalate_singleton]
          exact pieces_of_none wordNone
      | cons next words =>
          have later := induction (by simp) fun other member => none other (by simp [member])
          rw [List.intercalate_cons_cons, List.append_assoc, List.singleton_append,
            pieces_append wordNone separates, later]

/-- Pieces have characters of the text only, and no separators. -/
theorem of_mem_pieces {text piece : List Char} (member : piece ∈ pieces isSeparator text) :
    ∀ character ∈ piece, character ∈ text ∧ isSeparator character = false := by
  induction text generalizing piece with
  | nil =>
      cases List.mem_singleton.mp member
      simp
  | cons first text induction =>
      rw [pieces_cons] at member
      split at member
      · rcases List.mem_cons.mp member with rfl | later
        · simp
        · intro character inPiece
          have inside := induction later character inPiece
          exact ⟨List.mem_cons_of_mem _ inside.1, inside.2⟩
      · rename_i unseparated
        have noSeparator : isSeparator first = false := by simpa using unseparated
        cases cut : pieces isSeparator text with
        | nil =>
            rw [cut] at member
            cases List.mem_singleton.mp member
            simpa using noSeparator
        | cons piece₀ others =>
            rw [cut] at member induction
            intro character inPiece
            rcases List.mem_cons.mp member with rfl | later
            · rcases List.mem_cons.mp inPiece with rfl | inside
              · exact ⟨List.mem_cons_self, noSeparator⟩
              · have found := induction List.mem_cons_self character inside
                exact ⟨List.mem_cons_of_mem _ found.1, found.2⟩
            · have found := induction (List.mem_cons_of_mem _ later) character inPiece
              exact ⟨List.mem_cons_of_mem _ found.1, found.2⟩

/-! ## Fields -/

theorem fields_cons_separator {mark : Char} (separates : isSeparator mark = true)
    (rest : List Char) : fields isSeparator (mark :: rest) = fields isSeparator rest := by
  rw [fields, pieces_cons, if_pos separates]
  rfl

theorem fields_append_fields {mark : Char} (separates : isSeparator mark = true)
    (before after : List Char) : fields isSeparator (before ++ mark :: after) =
      fields isSeparator before ++ fields isSeparator after := by
  rw [fields, pieces_append_pieces separates, List.filter_append]
  rfl

theorem fields_of_word {word : List Char} (some : word ≠ [])
    (none : ∀ character ∈ word, isSeparator character = false) :
    fields isSeparator word = [word] := by
  rw [fields, pieces_of_none none]
  simp [some]

theorem fields_intercalate {words : List (List Char)} {mark : Char}
    (separates : isSeparator mark = true)
    (valid : ∀ word ∈ words, word ≠ [] ∧
      ∀ character ∈ word, isSeparator character = false) :
    fields isSeparator ([mark].intercalate words) = words := by
  cases words with
  | nil => rfl
  | cons word words =>
      rw [fields, pieces_intercalate separates (by simp) fun other member =>
        (valid other member).2]
      apply List.filter_eq_self.mpr
      intro other member
      simpa using (valid other member).1

theorem of_mem_fields {text word : List Char} (member : word ∈ fields isSeparator text) :
    word ≠ [] ∧
      ∀ character ∈ word, character ∈ text ∧ isSeparator character = false := by
  obtain ⟨isPiece, nonempty⟩ := List.mem_filter.mp member
  exact ⟨by simpa using nonempty, of_mem_pieces isPiece⟩

end Pieces

/-! ## Lines -/

private theorem dropCarriageReturn_eq_self {line : List Char}
    (noReturn : '\r' ∉ line) : dropCarriageReturn line = line := by
  rw [dropCarriageReturn, if_neg]
  intro last
  exact noReturn (List.mem_of_getLast? last)

private theorem closeLines_eq_self {lines : List (List Char)}
    (noReturn : ∀ line ∈ lines, '\r' ∉ line) (nonempty : ∀ line ∈ lines, line ≠ []) :
    closeLines lines = lines := by
  induction lines with
  | nil => rfl
  | cons line lines induction =>
      cases lines with
      | nil =>
          have some := nonempty line (by simp)
          simp [closeLines, some]
      | cons next lines =>
          have later := induction (fun other member => noReturn other (by simp [member]))
            fun other member => nonempty other (by simp [member])
          rw [closeLines, later, dropCarriageReturn_eq_self (noReturn line (by simp))]
          simp

theorem lines_intercalate {ls : List (List Char)}
    (valid : ∀ line ∈ ls, line ≠ [] ∧ '\n' ∉ line ∧ '\r' ∉ line) :
    lines (['\n'].intercalate ls) = ls := by
  cases ls with
  | nil => rfl
  | cons line rest =>
      rw [lines, pieces_intercalate (by rfl) (by simp)]
      · exact closeLines_eq_self (fun other member => (valid other member).2.2)
          fun other member => (valid other member).1
      · intro other member character inside
        have noFeed := (valid other member).2.1
        rw [beq_eq_false_iff_ne]
        exact ne_of_mem_of_not_mem inside noFeed

/-! ## Ends -/

/-- A text that neither starts nor ends with a blank is trimmed already. -/
theorem trim_eq_self {text : List Char}
    (first : ∀ character, text.head? = some character → isBlank character = false)
    (last : ∀ character, text.getLast? = some character → isBlank character = false) :
    trim text = text := by
  have dropsNone : ∀ {text : List Char},
      (∀ character, text.head? = some character → isBlank character = false) →
      text.dropWhile isBlank = text := by
    intro text first
    cases text with
    | nil => rfl
    | cons character rest => rw [List.dropWhile_cons_of_neg (by simp [first character rfl])]
  rw [trim, dropsNone first, dropsNone, List.reverse_reverse]
  intro character isFirst
  apply last
  rw [← isFirst, List.head?_reverse]

theorem mem_of_mem_trim {text : List Char} {character : Char}
    (member : character ∈ trim text) : character ∈ text := by
  have inReversed := (List.dropWhile_suffix isBlank).subset (List.mem_reverse.mp member)
  exact (List.dropWhile_suffix isBlank).subset (List.mem_reverse.mp inReversed)

theorem cutAt_append {mark : Char} {before after : List Char} (none : mark ∉ before) :
    cutAt mark (before ++ mark :: after) = some (before, after) := by
  induction before with
  | nil => simp [cutAt]
  | cons character before induction =>
      have different : character ≠ mark := fun same => none (by simp [same])
      rw [List.cons_append, cutAt, if_neg different,
        induction fun member => none (List.mem_cons_of_mem _ member)]
      rfl

/-- The part before a cut does not have the mark, and a text without a cut neither. -/
theorem not_mem_of_cutAt {mark : Char} {text : List Char} :
    match cutAt mark text with
    | some (before, _) => mark ∉ before
    | none => mark ∉ text := by
  induction text with
  | nil => simp [cutAt]
  | cons character text induction =>
      rw [cutAt]
      by_cases same : character = mark
      · simp [same]
      · rw [if_neg same]
        cases cut : cutAt mark text with
        | none =>
            rw [cut] at induction
            simpa [Ne.symm same] using induction
        | some parts =>
            rw [cut] at induction
            simpa [Ne.symm same] using induction

end Text

end GrammarReach
