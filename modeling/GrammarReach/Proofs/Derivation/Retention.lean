import GrammarReach.Proofs.Derivation.Support

/-!
# Retained records

Retaining what supports some answers keeps the records of the derivations that these go back
to, and no others.  Questions about some of the answers are then answered as before, and
retaining once more changes nothing.
-/

namespace GrammarReach

namespace Provenance

variable {provenance : Provenance} {answers targets : List Span} {span : Span}
  {id origin : DerivationId} {edge : Edge}

/-- An answer that stops elsewhere than it starts goes back to the derivation. -/
def Supports (provenance : Provenance) (answers : List Span) (origin : DerivationId) : Prop :=
  ∃ span ∈ answers, span.isReflexive = false ∧
    ∃ id, provenance.root? span = some id ∧ provenance.GoesBackTo id origin

/-- An edge or an antecedent is on record for the derivation. -/
def Records (provenance : Provenance) (id : DerivationId) : Prop :=
  id ∈ provenance.edges.rows ∨ id ∈ provenance.antecedents.rows

/-- The same rows and roots are on record. -/
structure SameRecords (provenance other : Provenance) : Prop where
  edges : provenance.edges.rows.Equiv other.edges.rows
  antecedents : provenance.antecedents.rows.Equiv other.antecedents.rows
  roots : provenance.roots.Equiv other.roots

theorem mem_ancestors_iff :
    origin ∈ provenance.ancestors answers ↔ provenance.Supports answers origin := by
  refine ⟨exists_root_of_mem_ancestors, ?_⟩
  rintro ⟨span, member, irreflexive, id, root, back⟩
  exact mem_ancestors member irreflexive root back

theorem mem_supportingEdges_iff :
    edge ∈ provenance.supportingEdges targets ↔
      (∃ origin, provenance.Supports targets origin ∧ edge ∈ provenance.edges.row origin) ∧
        edge.isEpsilon = false := by
  simp only [supportingEdges, mem_edgesOf, mem_ancestors_iff]

/-! ## What is left -/

theorem root?_retainSupporting :
    (provenance.retainSupporting answers).2.root? span = some id ↔
      provenance.root? span = some id ∧ provenance.Supports answers id := by
  rw [root?, retainSupporting, Std.TreeMap.getElem?_filter', Option.filter_eq_some_iff,
    Std.TreeSet.contains_iff_mem, mem_ancestors_iff]
  rfl

theorem root?_retainSupporting_of_mem (answer : span ∈ answers)
    (irreflexive : span.isReflexive = false) :
    (provenance.retainSupporting answers).2.root? span = provenance.root? span := by
  refine Option.ext fun id => ?_
  rw [root?_retainSupporting]
  exact ⟨And.left, fun root => ⟨root, span, answer, irreflexive, id, root, .refl⟩⟩

theorem records_retainSupporting :
    (provenance.retainSupporting answers).2.Records id ↔
      provenance.Records id ∧ provenance.Supports answers id := by
  simp only [Records, retainSupporting, Keyed.keep, ← mem_ancestors_iff, Std.TreeMap.mem_filter,
    Std.TreeSet.contains_iff_mem, Std.TreeMap.getKey_eq, exists_prop, or_and_right]

theorem supports_retainSupporting (sub : targets ⊆ answers) :
    (provenance.retainSupporting answers).2.Supports targets origin ↔
      provenance.Supports targets origin := by
  constructor
  · rintro ⟨span, member, irreflexive, id, root, back⟩
    exact ⟨span, member, irreflexive, id, root?_of_retainSupporting root,
      goesBackTo_of_retainSupporting back⟩
  · rintro ⟨span, member, irreflexive, id, root, back⟩
    have kept : ∀ other, provenance.GoesBackTo id other → other ∈ provenance.ancestors answers :=
      fun other way => mem_ancestors (sub member) irreflexive root way
    refine ⟨span, member, irreflexive, id, ?_, goesBackTo_retainSupporting kept back⟩
    rw [root?_retainSupporting_of_mem (sub member) irreflexive, root]

theorem row_edges_retainSupporting (supports : provenance.Supports answers origin) :
    (provenance.retainSupporting answers).2.edges.row origin = provenance.edges.row origin := by
  rw [retainSupporting, Keyed.row_keep, if_pos]
  exact Std.TreeSet.contains_iff_mem.mpr (mem_ancestors_iff.mpr supports)

theorem Supports.mono (sub : targets ⊆ answers) (supports : provenance.Supports targets origin) :
    provenance.Supports answers origin := by
  obtain ⟨span, member, rest⟩ := supports
  exact ⟨span, sub member, rest⟩

theorem supportingEdges_retainSupporting (sub : targets ⊆ answers) :
    ((provenance.retainSupporting answers).2.supportingEdges targets).toList =
      (provenance.supportingEdges targets).toList := by
  refine Std.TreeSet.Equiv.toList_eq (.of_forall_mem_iff fun edge => ?_)
  rw [mem_supportingEdges_iff, mem_supportingEdges_iff]
  refine and_congr_left fun _ => exists_congr fun origin => ?_
  rw [supports_retainSupporting sub]
  refine and_congr_right fun supports => ?_
  rw [row_edges_retainSupporting (supports.mono sub)]

theorem sameRecords_retainSupporting (records : ∀ id, provenance.Records id →
      provenance.Supports answers id)
    (roots : ∀ span id, provenance.root? span = some id → provenance.Supports answers id) :
    (provenance.retainSupporting answers).2.SameRecords provenance where
  edges := Std.TreeMap.filter_equiv_self_iff.mpr fun id known => by
    rw [Std.TreeMap.getKey_eq, Std.TreeSet.contains_iff_mem, mem_ancestors_iff]
    exact records id (.inl known)
  antecedents := Std.TreeMap.filter_equiv_self_iff.mpr fun id known => by
    rw [Std.TreeMap.getKey_eq, Std.TreeSet.contains_iff_mem, mem_ancestors_iff]
    exact records id (.inr known)
  roots := Std.TreeMap.filter_equiv_self_iff.mpr fun span known => by
    rw [Std.TreeSet.contains_iff_mem, mem_ancestors_iff]
    exact roots span _ (Std.TreeMap.getElem?_eq_some_getElem known)

/-- Retaining answers with the supporting edges.  Afterwards the edges that support some of the
answers and the roots of the answers are as before, all that is left are the records and roots
of derivations that the answers go back to, and retaining once more answers alike and changes
nothing. -/
theorem retainSupporting_exact (provenance : Provenance) {answers targets : List Span}
    (sub : targets ⊆ answers) :
    let pruned := (provenance.retainSupporting answers).2
    (provenance.retainSupporting answers).1 = provenance.supportingEdges answers ∧
    (pruned.supportingEdges targets).toList = (provenance.supportingEdges targets).toList ∧
    (∀ span ∈ answers, span.isReflexive = false → pruned.root? span = provenance.root? span) ∧
    (∀ id, pruned.Records id ↔ provenance.Records id ∧ provenance.Supports answers id) ∧
    (∀ span id, pruned.root? span = some id ↔
      provenance.root? span = some id ∧ provenance.Supports answers id) ∧
    (pruned.retainSupporting answers).1.toList =
      (provenance.retainSupporting answers).1.toList ∧
    (pruned.retainSupporting answers).2.SameRecords pruned := by
  refine ⟨rfl, supportingEdges_retainSupporting sub, fun span => root?_retainSupporting_of_mem,
    fun id => records_retainSupporting, fun span id => root?_retainSupporting,
    supportingEdges_retainSupporting (List.Subset.refl answers), ?_⟩
  refine sameRecords_retainSupporting (fun id records => ?_) fun span id root => ?_
  · exact (supports_retainSupporting (List.Subset.refl answers)).mpr
      (records_retainSupporting.mp records).2
  · exact (supports_retainSupporting (List.Subset.refl answers)).mpr
      (root?_retainSupporting.mp root).2

/-- Records of two answers with a cycle among their derivations, and of a third answer. -/
def cyclicRecords : Provenance :=
  let edges : Provenance := ((((Provenance.empty.recordEdge 0 ⟨0, 1, "a"⟩).recordEdge 1
    ⟨1, 2, "b"⟩).recordEdge 1 ⟨1, 1, ""⟩).recordEdge 3 ⟨5, 6, "c"⟩)
  let antecedents := ((((edges.recordAntecedent 2 0).recordAntecedent 2 1).recordAntecedent 0
    2).recordAntecedent 3 1)
  (((antecedents.recordRoot ⟨0, 2⟩ 2).recordRoot ⟨1, 2⟩ 1).recordRoot ⟨5, 6⟩ 3).recordRoot ⟨7, 7⟩ 3

theorem retainSupporting_exact_cyclicRecords :
    [(⟨1, 2⟩ : Span)] ⊆ [⟨0, 2⟩, ⟨7, 7⟩, ⟨1, 2⟩] ∧
      ((cyclicRecords.retainSupporting [⟨0, 2⟩, ⟨7, 7⟩, ⟨1, 2⟩]).2.supportingEdges
        [⟨1, 2⟩]).toList = [⟨1, 2, "b"⟩] ∧
      cyclicRecords.Supports [⟨0, 2⟩, ⟨7, 7⟩, ⟨1, 2⟩] 0 ∧
      ¬ cyclicRecords.Supports [⟨0, 2⟩, ⟨7, 7⟩, ⟨1, 2⟩] 3 := by
  have sub : [(⟨1, 2⟩ : Span)] ⊆ [⟨0, 2⟩, ⟨7, 7⟩, ⟨1, 2⟩] := by decide
  obtain ⟨_, edges, _, records, _⟩ := retainSupporting_exact cyclicRecords sub
  have supported : (cyclicRecords.supportingEdges [⟨1, 2⟩]).toList = [⟨1, 2, "b"⟩] := by
    decide +kernel
  refine ⟨sub, edges.trans supported, ((records 0).mp ?_).2, fun supports => ?_⟩
  · exact .inl (by decide +kernel)
  · have left := (records 3).mpr ⟨.inl (by decide +kernel), supports⟩
    exact left.elim (by decide +kernel) (by decide +kernel)

end Provenance

end GrammarReach
