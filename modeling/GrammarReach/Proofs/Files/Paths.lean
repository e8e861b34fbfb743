import GrammarReach.Files.Path
import GrammarReach.Proofs.Text.Pieces

/-!
# Paths of files in a directory

The path of a file is the path of its directory with one part more.  Names of files are the
parts of paths: they are not empty and have no slash.
-/

namespace GrammarReach

namespace Path

/-- The text can stand between the slashes of a path. -/
def IsName (name : String) : Prop :=
  name ≠ "" ∧ '/' ∉ name.toList

variable {text directory name : String}

theorem isName_of_mem_parts (member : name ∈ (read text).parts) : IsName name := by
  obtain ⟨field, isField, rfl⟩ := List.mem_map.mp member
  obtain ⟨nonempty, inside⟩ := Text.of_mem_fields isField
  refine ⟨fun empty => nonempty ?_, fun slash => ?_⟩
  · rw [← String.toList_ofList (l := field), empty]
    rfl
  · rw [String.toList_ofList] at slash
    simpa using (inside '/' slash).2

/-- The name of a file is a part of its path. -/
theorem isName_of_fileName? (found : (read text).fileName? = some name) : IsName name := by
  have isLast : (read text).tidyParts.getLast? = some name := by
    unfold fileName? at found
    split at found
    · rename_i last isLast
      split at found
      · cases found
      · rw [isLast, found]
    · cases found
  suffices member : name ∈ (read text).parts from isName_of_mem_parts member
  have inTidy := List.mem_of_getLast? isLast
  unfold tidyParts at inTidy
  split at inTidy
  · rename_i first rest absolute parts
    rw [parts]
    rcases List.mem_cons.mp inTidy with rfl | inRest
    · exact .head _
    · exact .tail _ (List.mem_filter.mp inRest).1
  · exact (List.mem_filter.mp inTidy).1

theorem IsName.append (isName : IsName name) {ending : String} (noSlash : '/' ∉ ending.toList) :
    IsName (name ++ ending) := by
  refine ⟨fun empty => isName.1 (String.append_eq_empty_iff.mp empty).1, ?_⟩
  simpa using ⟨isName.2, noSlash⟩

/-- The name of a file stands behind a slash, which is put there unless the directory has it. -/
theorem toList_join (nonempty : directory ≠ "") (name : String) :
    ∃ before, (join directory [name]).toList = before ++ '/' :: name.toList ∧
      before.head?.or (some '/') = directory.toList.head? ∧
      Text.fields (· == '/') directory.toList = Text.fields (· == '/') before := by
  unfold join
  rw [List.foldl_cons, List.foldl_nil]
  split
  · rename_i slashed
    obtain ⟨before, split⟩ := List.getLast?_eq_some_iff.mp slashed
    refine ⟨before, by simp [split], ?_, ?_⟩
    · rw [split]
      cases before <;> rfl
    · rw [split, Text.fields_append_fields (by rfl)]
      exact List.append_nil _
  · refine ⟨directory.toList, by simp, ?_, rfl⟩
    cases characters : directory.toList with
    | nil => exact absurd (by simpa using characters) nonempty
    | cons first others => rfl

/-- The path of a file in a directory has the name of the file as one more part. -/
theorem read_join (nonempty : directory ≠ "") (isName : IsName name) :
    read (join directory [name]) =
      { absolute := (read directory).absolute, parts := (read directory).parts ++ [name] } := by
  obtain ⟨before, text, head, parts⟩ := toList_join nonempty name
  have own : Text.fields (· == '/') name.toList = [name.toList] := by
    refine Text.fields_of_word (by simpa using isName.1) fun character inside => ?_
    rw [beq_eq_false_iff_ne]
    exact ne_of_mem_of_not_mem inside isName.2
  have unslashed : name.toList.getLast? ≠ some '/' := fun last =>
    isName.2 (List.mem_of_getLast? last)
  have start : (before ++ '/' :: name.toList).head? = directory.toList.head? := by
    rw [← head]
    cases before <;> rfl
  have ending : (before ++ '/' :: name.toList).getLast? = name.toList.getLast? := by
    rw [List.getLast?_append, List.getLast?_cons]
    cases last : name.toList.getLast? with
    | none => exact absurd (List.getLast?_eq_none_iff.mp last) (by simpa using isName.1)
    | some character => rfl
  simp [read, text, start, ending, unslashed, parts, own, Text.fields_append_fields]

end Path

end GrammarReach
