import GrammarReach.Proofs.Bracket.Nesting
import Mathlib.Algebra.BigOperators.Group.Finset.Basic
import Mathlib.Algebra.Group.Nat.Even
import Mathlib.Algebra.Ring.Parity
import Mathlib.Data.List.Perm.Subperm

/-!
# Passing brackets

A grammar that balances one family sees the brackets of the other one pass.  Passing
brackets cancel when every class of ids occurs evenly often, the first bracket opens
and the last one closes.  Brackets that match cancel whatever the classes are, and
they can be put anywhere among brackets that cancel.
-/

namespace GrammarReach

/-- A bracket of a known family: its id and whether it opens. -/
structure PassingBracket where
  id : Nat
  opens : Bool
deriving DecidableEq, Repr

namespace BracketFamily

/-- The label as a bracket of the family, if it is one. -/
def bracketOf? (family : BracketFamily) (label : Label) : Option PassingBracket :=
  match BracketLabel.read label with
  | .opening owner id => if owner = family then some ⟨id, true⟩ else none
  | .closing owner id => if owner = family then some ⟨id, false⟩ else none
  | _ => none

/-- The brackets of the family along a word. -/
def bracketsOf (family : BracketFamily) (word : List Label) : List PassingBracket :=
  word.filterMap family.bracketOf?

section Brackets

variable {family : BracketFamily}

@[simp] theorem bracketsOf_append (left right : List Label) :
    family.bracketsOf (left ++ right) = family.bracketsOf left ++ family.bracketsOf right :=
  List.filterMap_append

theorem bracketOf?_of_foreign {label : Label} (foreign : family.owns label = false) :
    family.bracketOf? label = none := by
  unfold owns at foreign
  unfold bracketOf?
  cases reading : BracketLabel.read label with
  | epsilon => rfl
  | normal => rfl
  | other label => rfl
  | opening owner id =>
      rw [reading] at foreign
      exact if_neg (by simpa [BracketLabel.bracket?] using foreign)
  | closing owner id =>
      rw [reading] at foreign
      exact if_neg (by simpa [BracketLabel.bracket?] using foreign)

theorem bracketOf?_openLabel {id : Nat} (below : id < Text.halfWordBound) :
    family.bracketOf? (family.openLabel id) = some ⟨id, true⟩ := by
  simp [bracketOf?, below]

theorem bracketOf?_closeLabel {id : Nat} (below : id < Text.halfWordBound) :
    family.bracketOf? (family.closeLabel id) = some ⟨id, false⟩ := by
  simp [bracketOf?, below]

theorem bracketsOf_cons_none {label : Label} (none : family.bracketOf? label = none)
    (word : List Label) : family.bracketsOf (label :: word) = family.bracketsOf word :=
  List.filterMap_cons_none none

theorem bracketsOf_cons_some {label : Label} {bracket : PassingBracket}
    (some : family.bracketOf? label = some bracket) (word : List Label) :
    family.bracketsOf (label :: word) = bracket :: family.bracketsOf word :=
  List.filterMap_cons_some some

end Brackets

end BracketFamily

/-! ## Classes of ids -/

/-- The place of an id among the ids in ascending order: the number of smaller ids. -/
def rank (ids : List Nat) (id : Nat) : Nat :=
  ids.countP (· < id)

/-- The class of an id: its place modulo the number of classes. -/
def residueClass (ids : List Nat) (classes : Nat) (id : Nat) : Nat :=
  rank ids id % classes

/-- Every class of ids occurs evenly often, the first bracket opens and the last one
closes.  No brackets at all cancel as well. -/
structure Cancels (classOf : Nat → Nat) (brackets : List PassingBracket) : Prop where
  even : ∀ number, Even (brackets.countP fun bracket => classOf bracket.id = number)
  first : ∀ bracket, brackets.head? = some bracket → bracket.opens = true
  last : ∀ bracket, brackets.getLast? = some bracket → bracket.opens = false

namespace Cancels

variable {classOf : Nat → Nat} {before inner behind brackets : List PassingBracket}

theorem nil : Cancels classOf [] :=
  ⟨by simp, by simp, by simp⟩

theorem congr {other : Nat → Nat} (cancels : Cancels classOf brackets)
    (same : ∀ bracket ∈ brackets, classOf bracket.id = other bracket.id) :
    Cancels other brackets := by
  refine ⟨fun number => ?_, cancels.first, cancels.last⟩
  have counts : (brackets.countP fun bracket => other bracket.id = number) =
      brackets.countP fun bracket => classOf bracket.id = number :=
    List.countP_congr fun bracket member => by rw [same bracket member]
  exact counts ▸ cancels.even number

/-- Brackets that cancel among themselves change nothing where they are put in. -/
theorem insert (outer : Cancels classOf (before ++ behind)) (cancels : Cancels classOf inner) :
    Cancels classOf (before ++ (inner ++ behind)) := by
  refine ⟨fun number => ?_, fun bracket found => ?_, fun bracket found => ?_⟩
  · have outside := outer.even number
    have inside := cancels.even number
    rw [List.countP_append] at outside
    rw [List.countP_append, List.countP_append, Nat.add_left_comm]
    exact inside.add outside
  · rw [List.head?_append, Option.or_eq_some_iff] at found
    rcases found with atFront | ⟨nothing, found⟩
    · exact outer.first bracket (by rw [List.head?_append, atFront, Option.some_or])
    · rw [List.head?_append, Option.or_eq_some_iff] at found
      rcases found with inside | ⟨_, found⟩
      · exact cancels.first bracket inside
      · exact outer.first bracket (by rw [List.head?_append, nothing, Option.none_or, found])
  · rw [List.getLast?_append, Option.or_eq_some_iff] at found
    rcases found with found | ⟨nothing, atFront⟩
    · rw [List.getLast?_append, Option.or_eq_some_iff] at found
      rcases found with atEnd | ⟨_, inside⟩
      · exact outer.last bracket (by rw [List.getLast?_append, atEnd, Option.some_or])
      · exact cancels.last bracket inside
    · rw [List.getLast?_append, Option.or_eq_none_iff] at nothing
      exact outer.last bracket
        (by rw [List.getLast?_append, nothing.1, Option.none_or, atFront])

theorem append (first : Cancels classOf before) (second : Cancels classOf behind) :
    Cancels classOf (before ++ behind) := by
  have whole := @insert _ before _ [] (by simpa using first) second
  simpa using whole

theorem enclose (id : Nat) (cancels : Cancels classOf inner) :
    Cancels classOf (⟨id, true⟩ :: (inner ++ [⟨id, false⟩])) := by
  have pair : Cancels classOf [⟨id, true⟩, ⟨id, false⟩] := by
    refine ⟨fun number => ?_, by simp, by simp⟩
    by_cases same : classOf id = number
    · simp [same]
    · simp [same]
  exact @insert _ [⟨id, true⟩] _ [⟨id, false⟩] pair cancels

end Cancels

theorem BracketFamily.Matched.cancels {family : BracketFamily} {word : List Label}
    (matched : family.Matched word) (classOf : Nat → Nat) :
    Cancels classOf (family.bracketsOf word) := by
  induction matched with
  | nil => exact .nil
  | pass foreign _ induction =>
      rw [bracketsOf_cons_none (bracketOf?_of_foreign foreign)]
      exact induction
  | @wrap id inner rest below _ _ innerCancels restCancels =>
      rw [bracketsOf_cons_some (bracketOf?_openLabel below), bracketsOf_append,
        bracketsOf_cons_some (bracketOf?_closeLabel below)]
      simpa using (innerCancels.enclose id).append restCancels

/-! ## Classes in a machine word -/

/-- The digit of a machine word that stands for the class of an id. -/
def classDigit (ids : List Nat) (classes : Nat) (id : Nat) : Nat :=
  residueClass ids classes id % Text.wordBits

/-- Brackets that cancel for a machine word.  Classes share a digit when they differ by the
width of a word, and only the digits below the number of classes modulo that width are
counted. -/
structure CancelsInWord (ids : List Nat) (classes : Nat) (brackets : List PassingBracket) :
    Prop where
  counted : ∀ bracket ∈ brackets, classDigit ids classes bracket.id < classes % Text.wordBits
  cancels : Cancels (classDigit ids classes) brackets

section Words

variable {ids : List Nat} {classes : Nat} {brackets : List PassingBracket}

theorem CancelsInWord.nil : CancelsInWord ids classes [] :=
  ⟨by simp, .nil⟩

theorem CancelsInWord.eq_nil (cancels : CancelsInWord ids classes brackets)
    (full : classes % Text.wordBits = 0) : brackets = [] :=
  List.eq_nil_iff_forall_not_mem.mpr fun bracket member =>
    absurd (full ▸ cancels.counted bracket member) (Nat.not_lt_zero _)

theorem classDigit_of_lt (positive : 0 < classes) (within : classes < Text.wordBits) (id : Nat) :
    classDigit ids classes id = residueClass ids classes id :=
  Nat.mod_eq_of_lt (Nat.lt_trans (Nat.mod_lt _ positive) within)

/-- With fewer classes than a word has digits every class has its own one, and all of them
are counted. -/
theorem cancelsInWord_iff (positive : 0 < classes) (within : classes < Text.wordBits) :
    CancelsInWord ids classes brackets ↔ Cancels (residueClass ids classes) brackets := by
  have digits : classDigit ids classes = residueClass ids classes :=
    funext fun id => classDigit_of_lt positive within id
  constructor
  · intro cancels
    exact digits ▸ cancels.cancels
  · intro cancels
    refine ⟨fun bracket _ => ?_, digits ▸ cancels⟩
    rw [digits, Nat.mod_eq_of_lt within]
    exact Nat.mod_lt _ positive

end Words

/-! ## Independence of the classes -/

private theorem even_countP_of_even_count {brackets : List PassingBracket}
    (even : ∀ id, Even (brackets.countP fun bracket => bracket.id = id))
    (holds : Nat → Bool) : Even (brackets.countP fun bracket => holds bracket.id) := by
  let chosen := (brackets.filter fun bracket => holds bracket.id).map PassingBracket.id
  have total : ∑ id ∈ chosen.toFinset, chosen.count id = chosen.length :=
    List.sum_toFinset_count_eq_length chosen
  have counted : chosen.length = brackets.countP fun bracket => holds bracket.id := by
    simp [chosen, List.countP_eq_length_filter]
  rw [← counted, ← total]
  refine Finset.sum_induction _ Even (fun _ _ => Even.add) .zero fun id member => ?_
  have occurs : holds id = true := by
    obtain ⟨bracket, kept, rfl⟩ := List.mem_map.mp (List.mem_toFinset.mp member)
    exact (List.mem_filter.mp kept).2
  have same : chosen.count id = brackets.countP fun bracket => bracket.id = id := by
    rw [List.count, List.countP_map, List.countP_filter]
    apply List.countP_congr
    intro bracket _
    constructor
    · intro both
      simpa using (Bool.and_eq_true_iff.mp both).1
    · intro sameId
      have equal : bracket.id = id := by simpa using sameId
      simp [equal, occurs]
  rw [same]
  exact even id

/-- Classes that tell the occurring ids apart say as much as any other classes. -/
theorem Cancels.reclass {classOf : Nat → Nat} {brackets : List PassingBracket}
    (cancels : Cancels classOf brackets)
    (apart : ∀ bracket ∈ brackets, ∀ other ∈ brackets,
      classOf bracket.id = classOf other.id → bracket.id = other.id)
    (otherClassOf : Nat → Nat) : Cancels otherClassOf brackets := by
  refine ⟨fun number => ?_, cancels.first, cancels.last⟩
  refine even_countP_of_even_count (fun id => ?_) fun id => otherClassOf id = number
  by_cases occurs : ∃ bracket ∈ brackets, bracket.id = id
  · obtain ⟨known, member, rfl⟩ := occurs
    have same : (brackets.countP fun bracket => bracket.id = known.id) =
        brackets.countP fun bracket => classOf bracket.id = classOf known.id := by
      apply List.countP_congr
      intro bracket found
      simp only [decide_eq_true_eq]
      exact ⟨congrArg classOf, apart bracket found known member⟩
    rw [same]
    exact cancels.even (classOf known.id)
  · have none : (brackets.countP fun bracket => bracket.id = id) = 0 := by
      rw [List.countP_eq_zero]
      intro bracket member same
      exact occurs ⟨bracket, member, by simpa using same⟩
    rw [none]
    exact .zero

section Residues

variable {ids other : List Nat} {classes : Nat} {brackets : List PassingBracket}

theorem rank_lt_length {id : Nat} (member : id ∈ ids) : rank ids id < ids.length := by
  rw [rank, List.countP_lt_length_iff]
  exact ⟨id, member, by simp⟩

theorem rank_lt_rank {smaller larger : Nat} (member : smaller ∈ ids)
    (less : smaller < larger) : rank ids smaller < rank ids larger := by
  obtain ⟨before, behind, rfl⟩ := List.append_of_mem member
  have monotone : ∀ part : List Nat,
      part.countP (· < smaller) ≤ part.countP (· < larger) := fun part =>
    List.countP_mono_left fun id _ below => by
      simp only [decide_eq_true_eq] at below ⊢
      omega
  have first := monotone before
  have second := monotone behind
  simp only [rank, List.countP_append, List.countP_cons, decide_eq_true_eq,
    Nat.lt_irrefl, if_false, less, if_true]
  omega

theorem rank_injective {left right : Nat} (leftMember : left ∈ ids)
    (rightMember : right ∈ ids) (same : rank ids left = rank ids right) : left = right := by
  rcases Nat.lt_trichotomy left right with less | equal | more
  · exact absurd same (Nat.ne_of_lt (rank_lt_rank leftMember less))
  · exact equal
  · exact absurd same.symm (Nat.ne_of_lt (rank_lt_rank rightMember more))

theorem residueClass_injective (few : ids.length ≤ classes) {left right : Nat}
    (leftMember : left ∈ ids) (rightMember : right ∈ ids)
    (same : residueClass ids classes left = residueClass ids classes right) :
    left = right := by
  apply rank_injective leftMember rightMember
  have leftBelow := rank_lt_length leftMember
  have rightBelow := rank_lt_length rightMember
  rwa [residueClass, residueClass, Nat.mod_eq_of_lt (by omega),
    Nat.mod_eq_of_lt (by omega)] at same

theorem Cancels.reclass_of_few (cancels : Cancels (residueClass ids classes) brackets)
    (known : ∀ bracket ∈ brackets, bracket.id ∈ ids) (few : ids.length ≤ classes)
    (otherClassOf : Nat → Nat) : Cancels otherClassOf brackets :=
  cancels.reclass (fun bracket member other otherMember same =>
    residueClass_injective few (known bracket member) (known other otherMember) same) _

theorem Cancels.residue_one (cancels : Cancels (residueClass ids 1) brackets)
    (other : List Nat) : Cancels (residueClass other 1) brackets := by
  have same : residueClass ids 1 = residueClass other 1 := by
    funext id
    simp [residueClass, Nat.mod_one]
  exact same ▸ cancels

theorem Cancels.widen (cancels : Cancels (residueClass ids classes) brackets)
    (known : ∀ bracket ∈ brackets, bracket.id ∈ ids) (distinct : ids.Nodup)
    (sub : ∀ id ∈ ids, id ∈ other) (few : other.length ≤ classes + 1) :
    Cancels (residueClass other classes) brackets := by
  have subperm : List.Subperm ids other := distinct.subperm sub
  by_cases fewer : ids.length ≤ classes
  · exact cancels.reclass_of_few known fewer _
  · have same : ids.Perm other := subperm.perm_of_length_le (by omega)
    have ranks : residueClass ids classes = residueClass other classes := by
      funext id
      rw [residueClass, residueClass, rank, rank, same.countP_eq]
    exact ranks ▸ cancels

end Residues

end GrammarReach
