import GrammarReach.Derivation.Table
import GrammarReach.Proofs.Container.Rows
import Mathlib.Data.List.Nodup

/-!
# Coherent tables

A table is coherent when every derivation stands at one place and the indices
list exactly the places that they should.  Accepting a derivation keeps a table
coherent and moves nothing.
-/

namespace GrammarReach

namespace DerivationTable

/-- The places and both indices say the same as the row of derivations. -/
structure Coherent (table : DerivationTable) : Prop where
  places : ∀ derivation id,
    table.places[derivation]? = some id ↔ table.derivation? id = some derivation
  nonterminals : ∀ nonterminal id, id ∈ table.ofNonterminal nonterminal ↔
    ∃ derivation, table.derivation? id = some derivation ∧
      derivation.nonterminal = nonterminal
  boundaries : ∀ boundary id, id ∈ table.atBoundary boundary ↔
    ∃ derivation, table.derivation? id = some derivation ∧
      boundary ∈ boundariesOf derivation

/-- The later table has every derivation of the earlier one at the same place. -/
def Extends (earlier later : DerivationTable) : Prop :=
  ∀ id derivation, earlier.derivation? id = some derivation →
    later.derivation? id = some derivation

theorem Extends.refl (table : DerivationTable) : table.Extends table :=
  fun _ _ found => found

theorem Extends.trans {first second third : DerivationTable}
    (before : first.Extends second) (behind : second.Extends third) :
    first.Extends third :=
  fun id derivation found => behind id derivation (before id derivation found)

theorem lt_size_of_derivation? {table : DerivationTable} {id : DerivationId}
    {derivation : Derivation} (found : table.derivation? id = some derivation) :
    id < table.size :=
  (Array.getElem?_eq_some_iff.mp found).1

theorem exists_derivation?_of_lt {table : DerivationTable} {id : DerivationId}
    (inside : id < table.size) : ∃ derivation, table.derivation? id = some derivation :=
  ⟨_, Array.getElem?_eq_getElem inside⟩

theorem coherent_ofNonterminals (nonterminals : Nonterminals) :
    (ofNonterminals nonterminals).Coherent := by
  constructor
  · intro derivation id
    simp [ofNonterminals, derivation?]
  · intro nonterminal id
    simp [ofNonterminals, derivation?, ofNonterminal, Keyed.row_empty]
  · intro boundary id
    simp [ofNonterminals, derivation?, atBoundary, Keyed.row_empty]

theorem Coherent.place_unique {table : DerivationTable} (coherent : table.Coherent)
    {first second : DerivationId} {derivation : Derivation}
    (firstFound : table.derivation? first = some derivation)
    (secondFound : table.derivation? second = some derivation) : first = second := by
  have firstPlace := (coherent.places derivation first).mpr firstFound
  have secondPlace := (coherent.places derivation second).mpr secondFound
  rw [firstPlace] at secondPlace
  exact Option.some.inj secondPlace

theorem Coherent.nodup {table : DerivationTable} (coherent : table.Coherent) :
    table.derivations.toList.Nodup := by
  rw [List.nodup_iff_getElem?_ne_getElem?]
  intro first second before inside same
  have firstInside : first < table.size := by
    rw [Array.length_toList] at inside
    exact Nat.lt_trans before inside
  obtain ⟨derivation, found⟩ := exists_derivation?_of_lt firstInside
  have secondFound : table.derivation? second = some derivation := by
    rw [← found, derivation?, derivation?, ← Array.getElem?_toList, ← Array.getElem?_toList,
      same]
  exact absurd (coherent.place_unique found secondFound) (Nat.ne_of_lt before)

/-! ## Accepting a derivation -/

section Insert

variable {table : DerivationTable} {derivation : Derivation}

private theorem insert_known {id : DerivationId}
    (known : table.places[derivation]? = some id) :
    table.insert derivation = (id, false, table) := by
  simp [insert, known]

private theorem insert_new (new : table.places[derivation]? = none) :
    table.insert derivation =
      (table.size, true,
        { nonterminals := table.nonterminals
          derivations := table.derivations.push derivation
          places := table.places.insert derivation table.size
          byNonterminal := table.byNonterminal.push derivation.nonterminal table.size
          byBoundary := (boundariesOf derivation).foldl
            (fun index boundary => index.push boundary table.size) table.byBoundary }) := by
  simp [insert, new]

private theorem derivation?_push (id : DerivationId) (other : Derivation) :
    (table.derivations.push derivation)[id]? = some other ↔
      table.derivation? id = some other ∨ (id = table.size ∧ other = derivation) := by
  rw [Array.getElem?_push]
  by_cases last : id = table.derivations.size
  · subst last
    simp [derivation?, size, eq_comm]
  · simp [derivation?, size, last]

theorem derivation?_insert_cases {id : DerivationId} {other : Derivation}
    (found : (table.insert derivation).2.2.derivation? id = some other) :
    table.derivation? id = some other ∨ other = derivation := by
  cases place : table.places[derivation]? with
  | some known =>
      rw [insert_known place] at found
      exact Or.inl found
  | none =>
      rw [insert_new place] at found
      exact ((derivation?_push id other).mp found).imp_right And.right

theorem extends_insert (table : DerivationTable) (derivation : Derivation) :
    table.Extends (table.insert derivation).2.2 := by
  intro id other found
  cases place : table.places[derivation]? with
  | some known =>
      rw [insert_known place]
      exact found
  | none =>
      rw [insert_new place]
      exact (derivation?_push id other).mpr (Or.inl found)

theorem nonterminals_insert (table : DerivationTable) (derivation : Derivation) :
    (table.insert derivation).2.2.nonterminals = table.nonterminals := by
  cases place : table.places[derivation]? with
  | some known => rw [insert_known place]
  | none => rw [insert_new place]

theorem Coherent.derivation?_insert (coherent : table.Coherent)
    (derivation : Derivation) :
    (table.insert derivation).2.2.derivation? (table.insert derivation).1 =
      some derivation := by
  cases place : table.places[derivation]? with
  | some known =>
      rw [insert_known place]
      exact (coherent.places derivation known).mp place
  | none =>
      rw [insert_new place]
      exact (derivation?_push table.size derivation).mpr (Or.inr ⟨rfl, rfl⟩)

private theorem Coherent.insert_new (coherent : table.Coherent)
    (new : table.places[derivation]? = none) :
    (table.insert derivation).2.2.Coherent := by
  have fresh : ∀ id, table.derivation? id ≠ some derivation := by
    intro id found
    rw [(coherent.places derivation id).mpr found] at new
    cases new
  rw [DerivationTable.insert_new new]
  constructor
  · intro other id
    rw [Std.TreeMap.getElem?_insert]
    refine Iff.trans ?_ (derivation?_push id other).symm
    by_cases same : derivation = other
    · subst same
      simp [fresh id, eq_comm]
    · have different : ¬ other = derivation := fun equality => same equality.symm
      simp [same, different, coherent.places other id]
  · intro nonterminal id
    apply Keyed.mem_row_push.trans
    rw [show id ∈ table.byNonterminal.row nonterminal ↔ _ from
      coherent.nonterminals nonterminal id]
    constructor
    · rintro (⟨other, found, same⟩ | ⟨same, rfl⟩)
      · exact ⟨other, (derivation?_push id other).mpr (Or.inl found), same⟩
      · exact ⟨derivation, (derivation?_push _ _).mpr (Or.inr ⟨rfl, rfl⟩), same.symm⟩
    · rintro ⟨other, found, same⟩
      rcases (derivation?_push id other).mp found with old | ⟨last, rfl⟩
      · exact Or.inl ⟨other, old, same⟩
      · exact Or.inr ⟨same.symm, last⟩
  · intro boundary id
    apply Keyed.mem_row_foldl_push.trans
    rw [show id ∈ table.byBoundary.row boundary ↔ _ from
      coherent.boundaries boundary id]
    constructor
    · rintro (⟨other, found, member⟩ | ⟨member, rfl⟩)
      · exact ⟨other, (derivation?_push id other).mpr (Or.inl found), member⟩
      · exact ⟨derivation, (derivation?_push _ _).mpr (Or.inr ⟨rfl, rfl⟩), member⟩
    · rintro ⟨other, found, member⟩
      rcases (derivation?_push id other).mp found with old | ⟨last, rfl⟩
      · exact Or.inl ⟨other, old, member⟩
      · exact Or.inr ⟨member, last⟩

theorem Coherent.insert (coherent : table.Coherent) (derivation : Derivation) :
    (table.insert derivation).2.2.Coherent := by
  cases place : table.places[derivation]? with
  | some known =>
      rw [insert_known place]
      exact coherent
  | none => exact coherent.insert_new place

end Insert

/-! ## Boundaries -/

/-- Every segment of a derivation has its two boundaries. -/
theorem mem_boundariesOf {derivation : Derivation} {boundary : Boundary} :
    boundary ∈ boundariesOf derivation ↔
      boundary.nonterminal = derivation.nonterminal ∧
        ∃ span, derivation.segments[boundary.segment]? = some span ∧
          boundary.vertex = span.at boundary.side := by
  obtain ⟨nonterminal, segment, side, vertex⟩ := boundary
  simp only [boundariesOf, List.mem_flatMap, Prod.exists, List.mk_mem_zipIdx_iff_getElem?,
    List.mem_cons, List.not_mem_nil, or_false, Boundary.mk.injEq]
  constructor
  · rintro ⟨span, place, found, ⟨rfl, rfl, rfl, rfl⟩ | ⟨rfl, rfl, rfl, rfl⟩⟩
    · exact ⟨rfl, span, found, rfl⟩
    · exact ⟨rfl, span, found, rfl⟩
  · rintro ⟨rfl, span, found, rfl⟩
    refine ⟨span, segment, found, ?_⟩
    cases side with
    | start => exact Or.inl ⟨rfl, rfl, rfl, rfl⟩
    | stop => exact Or.inr ⟨rfl, rfl, rfl, rfl⟩

theorem nodup_boundariesOf (derivation : Derivation) : (boundariesOf derivation).Nodup := by
  have general : ∀ (segments : List Span) (offset : Nat),
      ((segments.zipIdx offset).flatMap fun place =>
        [(⟨derivation.nonterminal, place.2, .start, place.1.start⟩ : Boundary),
          ⟨derivation.nonterminal, place.2, .stop, place.1.stop⟩]).Nodup := by
    intro segments
    induction segments with
    | nil => simp
    | cons span segments induction =>
        intro offset
        rw [List.zipIdx_cons, List.flatMap_cons]
        refine List.nodup_append.mpr ⟨by simp, induction (offset + 1), ?_⟩
        rintro first here second later rfl
        obtain ⟨⟨other, place⟩, inRest, made⟩ := List.mem_flatMap.mp later
        have after := (List.mk_mem_zipIdx_iff_le_and_getElem?_sub.mp inRest).1
        have sameHere : first.segment = offset := by
          simp only [List.mem_cons, List.not_mem_nil, or_false] at here
          rcases here with rfl | rfl <;> rfl
        have sameLater : first.segment = place := by
          simp only [List.mem_cons, List.not_mem_nil, or_false] at made
          rcases made with rfl | rfl <;> rfl
        omega
  exact general derivation.segments 0

/-! ## Tables made by accepting derivations -/

/-- Each index lists a derivation at most once. -/
structure Distinct (table : DerivationTable) : Prop where
  nonterminals : ∀ nonterminal, (table.ofNonterminal nonterminal).toList.Nodup
  boundaries : ∀ boundary, (table.atBoundary boundary).toList.Nodup

theorem Coherent.distinct_insert {table : DerivationTable} (coherent : table.Coherent)
    (distinct : table.Distinct) (derivation : Derivation) :
    (table.insert derivation).2.2.Distinct := by
  cases place : table.places[derivation]? with
  | some known =>
      rw [insert_known place]
      exact distinct
  | none =>
      have appended : ∀ {row : Array DerivationId} {test : Prop} [Decidable test],
          row.toList.Nodup → (∀ id ∈ row, ∃ old, table.derivation? id = some old) →
            (row.toList ++ if test then [table.size] else []).Nodup := by
        intro row test _ nodup known
        refine List.nodup_append.mpr ⟨nodup, by split <;> simp, ?_⟩
        rintro first inRow second last rfl
        obtain ⟨old, found⟩ := known first (Array.mem_toList_iff.mp inRow)
        have inside := lt_size_of_derivation? found
        split at last
        · rw [List.mem_singleton.mp last] at inside
          exact Nat.lt_irrefl _ inside
        · cases last
      rw [DerivationTable.insert_new place]
      constructor
      · intro nonterminal
        rw [ofNonterminal, Keyed.toList_row_push]
        refine appended (distinct.nonterminals nonterminal) fun id member => ?_
        obtain ⟨old, found, _⟩ := (coherent.nonterminals nonterminal id).mp member
        exact ⟨old, found⟩
      · intro boundary
        rw [atBoundary, Keyed.toList_row_foldl_push (nodup_boundariesOf derivation)]
        refine appended (distinct.boundaries boundary) fun id member => ?_
        obtain ⟨old, found, _⟩ := (coherent.boundaries boundary id).mp member
        exact ⟨old, found⟩

/-- The tables that come about when derivations are accepted one by one. -/
inductive Reachable (nonterminals : Nonterminals) : DerivationTable → Prop where
  | empty : Reachable nonterminals (ofNonterminals nonterminals)
  | insert {table : DerivationTable} (derivation : Derivation) :
      Reachable nonterminals table → Reachable nonterminals (table.insert derivation).2.2

namespace Reachable

variable {nonterminals : Nonterminals} {table : DerivationTable}

theorem coherent (reachable : Reachable nonterminals table) : table.Coherent := by
  induction reachable with
  | empty => exact coherent_ofNonterminals nonterminals
  | insert derivation _ induction => exact induction.insert derivation

theorem distinct (reachable : Reachable nonterminals table) : table.Distinct := by
  induction reachable with
  | empty =>
      constructor
      · simp [ofNonterminals, ofNonterminal, Keyed.row_empty]
      · simp [ofNonterminals, atBoundary, Keyed.row_empty]
  | insert derivation before induction =>
      exact before.coherent.distinct_insert induction derivation

theorem nonterminals_eq (reachable : Reachable nonterminals table) :
    table.nonterminals = nonterminals := by
  induction reachable with
  | empty => rfl
  | insert derivation _ induction => rw [nonterminals_insert, induction]

end Reachable

end DerivationTable

end GrammarReach
