import GrammarReach.Command.Analyze
import Mathlib.Data.Fintype.Basic
import Mathlib.Tactic.FinCases

/-!
# Inputs in JSON reports

A JSON report names its input.  The name is written with escapes that can be read back, so reports
of inputs with different names are different.
-/

namespace GrammarReach

namespace CommandLine

def hexValue (digit : Char) : Nat :=
  if digit.isDigit then digit.toNat - '0'.toNat else digit.toNat - 'a'.toNat + 10

/-- Reads what stands behind a backslash in a JSON string. -/
def readEscape : List Char → Option (Char × List Char)
  | 'u' :: '0' :: '0' :: high :: low :: rest =>
      some (Char.ofNat (16 * hexValue high + hexValue low), rest)
  | 'n' :: rest => some ('\n', rest)
  | 'r' :: rest => some ('\r', rest)
  | 't' :: rest => some ('\t', rest)
  | 'b' :: rest => some (Char.ofNat 8, rest)
  | 'f' :: rest => some (Char.ofNat 12, rest)
  | other :: rest => some (other, rest)
  | [] => none

/-- Reads one character of a JSON string, unless the string ends. -/
def readJsonCharacter : List Char → Option (Char × List Char)
  | [] => none
  | first :: rest =>
      if first = '\x22' then none
      else if first = '\\' then readEscape rest
      else some (first, rest)

theorem readJsonCharacter_control (code : Fin 32) (rest : List Char) :
    readJsonCharacter ((jsonCharacter (Char.ofNat code)).toList ++ rest) =
      some (Char.ofNat code, rest) := by
  fin_cases code <;> rfl

theorem readJsonCharacter_append (character : Char) (rest : List Char) :
    readJsonCharacter ((jsonCharacter character).toList ++ rest) = some (character, rest) := by
  by_cases control : character.toNat < 32
  · have isControl := readJsonCharacter_control ⟨character.toNat, control⟩ rest
    rwa [show Char.ofNat (⟨character.toNat, control⟩ : Fin 32).val = character from
      Char.ofNat_toNat character] at isControl
  · by_cases isQuote : character = '\x22'
    · subst isQuote
      rfl
    by_cases isBackslash : character = '\\'
    · subst isBackslash
      rfl
    have itself : jsonCharacter character = String.singleton character := by
      have noBackspace : character.toNat ≠ 8 := by omega
      have noFeed : character.toNat ≠ 12 := by omega
      unfold jsonCharacter
      split
      case h_6 => simp [noBackspace, noFeed, control]
      all_goals contradiction
    simp [itself, readJsonCharacter, isQuote, isBackslash]

def jsonCharacters (text : List Char) : List Char :=
  text.flatMap fun character => (jsonCharacter character).toList

theorem jsonCharacters_inj {first second firstRest secondRest : List Char}
    (same : jsonCharacters first ++ '\x22' :: firstRest =
      jsonCharacters second ++ '\x22' :: secondRest) : first = second := by
  have ends (rest : List Char) : readJsonCharacter ('\x22' :: rest) = none := rfl
  have reads (character : Char) (text rest : List Char) :
      readJsonCharacter (jsonCharacters (character :: text) ++ rest) =
        some (character, jsonCharacters text ++ rest) := by
    rw [jsonCharacters, List.flatMap_cons, List.append_assoc, readJsonCharacter_append]
    rfl
  induction first generalizing second with
  | nil =>
      cases second with
      | nil => rfl
      | cons character second =>
          have read := congrArg readJsonCharacter same
          rw [reads] at read
          cases (ends firstRest).symm.trans read
  | cons character first induction =>
      have read := congrArg readJsonCharacter same
      rw [reads] at read
      cases second with
      | nil => cases read.trans (ends secondRest)
      | cons other second =>
          rw [reads, Option.some.injEq, Prod.mk.injEq] at read
          rw [read.1, induction read.2]

theorem jsonReport_eq (input : String) (report : Report) : ∃ rest,
    (jsonReport input report).toList =
      "\x7b\n  \"input\": \"".toList ++ (jsonCharacters input.toList ++ '\x22' :: rest) := by
  unfold jsonReport
  dsimp only
  rw [List.map_cons, String.intercalate_cons_of_ne_nil (by simp [Report.keyed])]
  have key : jsonString "input" = "\"input\"" := rfl
  rw [key]
  have value : (jsonString input).toList = '\x22' :: (jsonCharacters input.toList ++ ['\x22']) := by
    simp [jsonString, jsonCharacters, String.toList_join, List.flatMap_def, Function.comp_def]
  simp [value]

theorem jsonReport_inj {input other : String} {first second : Report}
    (same : jsonReport input first = jsonReport other second) : input = other := by
  obtain ⟨firstRest, ofFirst⟩ := jsonReport_eq input first
  obtain ⟨secondRest, ofSecond⟩ := jsonReport_eq other second
  have texts := congrArg String.toList same
  rw [ofFirst, ofSecond] at texts
  exact String.toList_inj.mp (jsonCharacters_inj (List.append_cancel_left texts))

end CommandLine

end GrammarReach
