import GrammarReach.Derivation.Provenance
import GrammarReach.Proofs.Container.Rows
import Mathlib.Algebra.GroupWithZero.Nat
import Mathlib.Logic.Relation

/-!
# Going back to supporting edges

Visiting the records finds everything that the roots go back to.  Hence the edges
that support some answers include all labelled edges on record for a derivation
that one of the answers goes back to, and retaining what supports the answers
loses none of them.
-/

namespace GrammarReach

namespace Provenance

/-- The second derivation is the first one or was recorded on the way back from
it. -/
abbrev GoesBackTo (provenance : Provenance) : DerivationId → DerivationId → Prop :=
  Relation.ReflTransGen fun id antecedent => antecedent ∈ provenance.antecedents.row id

/-! ## Visiting -/

section Visiting

/-- The number of values in the rows of derivations that were not visited. -/
def unvisited (visited : Std.TreeSet DerivationId)
    (rows : List (DerivationId × Array DerivationId)) : Nat :=
  ((rows.filter fun item => !visited.contains item.1).map fun item => item.2.size).sum

variable {antecedents : Keyed DerivationId DerivationId}
  {visited : Std.TreeSet DerivationId} {id : DerivationId}

private theorem unvisited_cons (item : DerivationId × Array DerivationId)
    (rows : List (DerivationId × Array DerivationId)) :
    unvisited visited (item :: rows) =
      (if item.1 ∈ visited then 0 else item.2.size) + unvisited visited rows := by
  unfold unvisited
  by_cases known : item.1 ∈ visited
  · have isKnown : visited.contains item.1 = true := by simpa using known
    simp [isKnown, known]
  · have isFresh : visited.contains item.1 = false := by
      rw [← Std.TreeSet.contains_iff_mem] at known
      simpa only [Bool.not_eq_true] using known
    simp [isFresh, known]

private theorem row_insert_le (item : DerivationId × Array DerivationId) :
    (if item.1 ∈ visited.insert id then 0 else item.2.size) ≤
      if item.1 ∈ visited then 0 else item.2.size := by
  split
  · exact Nat.zero_le _
  · rename_i fresh
    have unknown : item.1 ∉ visited := fun known =>
      fresh (Std.TreeSet.mem_insert.mpr (Or.inr known))
    exact Nat.le_of_eq (if_neg unknown).symm

private theorem unvisited_insert_le
    (rows : List (DerivationId × Array DerivationId)) :
    unvisited (visited.insert id) rows ≤ unvisited visited rows := by
  induction rows with
  | nil => exact Nat.le_refl _
  | cons item rows induction =>
      rw [unvisited_cons, unvisited_cons]
      exact Nat.add_le_add (row_insert_le item) induction

private theorem unvisited_insert_add_size
    {rows : List (DerivationId × Array DerivationId)} {row : Array DerivationId}
    (fresh : id ∉ visited) (member : (id, row) ∈ rows) :
    unvisited (visited.insert id) rows + row.size ≤ unvisited visited rows := by
  induction rows with
  | nil => simp at member
  | cons item rows induction =>
      rw [unvisited_cons, unvisited_cons]
      rcases List.mem_cons.mp member with rfl | later
      · have rest := @unvisited_insert_le visited id rows
        rw [if_neg fresh, if_pos Std.TreeSet.mem_insert_self]
        simp only
        omega
      · rw [Nat.add_assoc]
        exact Nat.add_le_add (row_insert_le item) (induction later)

private theorem unvisited_insert_add_row
    (fresh : id ∉ visited) :
    unvisited (visited.insert id) antecedents.rows.toList + (antecedents.row id).size ≤
      unvisited visited antecedents.rows.toList := by
  cases found : antecedents.rows[id]? with
  | none =>
      have noRow : antecedents.row id = #[] := by
        simp [Keyed.row, Std.TreeMap.getD_eq_getD_getElem?, found]
      rw [noRow]
      exact unvisited_insert_le _
  | some row =>
      have rowEq : antecedents.row id = row := by
        simp [Keyed.row, Std.TreeMap.getD_eq_getD_getElem?, found]
      rw [rowEq]
      exact unvisited_insert_add_size fresh
        (Std.TreeMap.mem_toList_iff_getElem?_eq_some.mpr found)

private theorem unvisited_empty :
    unvisited ∅ antecedents.rows.toList = antecedents.total := by
  have counted : ∀ (rows : List (DerivationId × Array DerivationId)) (count : Nat),
      rows.foldl (fun count item => count + item.2.size) count =
        count + (rows.map fun item => item.2.size).sum := by
    intro rows
    induction rows with
    | nil => simp
    | cons item rows induction =>
        intro count
        rw [List.foldl_cons, induction, List.map_cons, List.sum_cons, Nat.add_assoc]
  have all : ∀ rows, unvisited ∅ rows = (rows.map fun item => item.2.size).sum := by
    intro rows
    induction rows with
    | nil => rfl
    | cons item rows induction => simp [unvisited_cons, induction]
  rw [Keyed.total, Std.TreeMap.foldl_eq_foldl_toList, counted, all, Nat.zero_add]

/-- The antecedents of visited derivations are visited or on the stack. -/
private def Awaits (antecedents : Keyed DerivationId DerivationId)
    (stack : List DerivationId) (visited : Std.TreeSet DerivationId) : Prop :=
  ∀ id ∈ visited, ∀ antecedent ∈ antecedents.row id, antecedent ∈ visited ∨ antecedent ∈ stack

section Awaits

variable {stack : List DerivationId}

private theorem known_or_waits (known : id ∈ visited) {other : DerivationId}
    (awaited : other ∈ visited ∨ other ∈ id :: stack) : other ∈ visited ∨ other ∈ stack := by
  rcases awaited with old | waiting
  · exact Or.inl old
  · rcases List.mem_cons.mp waiting with rfl | later
    · exact Or.inl known
    · exact Or.inr later

private theorem visited_or_waits {other : DerivationId}
    (awaited : other ∈ visited ∨ other ∈ id :: stack) :
    other ∈ visited.insert id ∨ other ∈ (antecedents.row id).toList ++ stack := by
  rcases awaited with old | waiting
  · exact Or.inl (Std.TreeSet.mem_insert.mpr (Or.inr old))
  · rcases List.mem_cons.mp waiting with rfl | later
    · exact Or.inl Std.TreeSet.mem_insert_self
    · exact Or.inr (List.mem_append.mpr (Or.inr later))

private theorem Awaits.skip (awaits : Awaits antecedents (id :: stack) visited)
    (known : id ∈ visited) : Awaits antecedents stack visited :=
  fun other member antecedent inRow => known_or_waits known (awaits other member antecedent inRow)

private theorem Awaits.visit (awaits : Awaits antecedents (id :: stack) visited) :
    Awaits antecedents ((antecedents.row id).toList ++ stack) (visited.insert id) := by
  intro other member antecedent inRow
  rw [Std.TreeSet.mem_insert, Std.LawfulEqOrd.compare_eq_iff_eq] at member
  rcases member with rfl | old
  · exact Or.inr (List.mem_append.mpr (Or.inl (Array.mem_toList_iff.mpr inRow)))
  · exact visited_or_waits (awaits other old antecedent inRow)

end Awaits

private theorem visit_spec (antecedents : Keyed DerivationId DerivationId) (bound : Nat) :
    ∀ (stack : List DerivationId) (visited : Std.TreeSet DerivationId),
      stack.length + unvisited visited antecedents.rows.toList ≤ bound →
      Awaits antecedents stack visited →
      (∀ id, id ∈ visited ∨ id ∈ stack → id ∈ visit antecedents bound stack visited) ∧
        ∀ id ∈ visit antecedents bound stack visited,
          ∀ antecedent ∈ antecedents.row id,
            antecedent ∈ visit antecedents bound stack visited := by
  induction bound with
  | zero =>
      intro stack visited enough awaits
      have noStack : stack = [] := List.length_eq_zero_iff.mp (by omega)
      subst noStack
      simpa [visit, Awaits] using awaits
  | succ bound induction =>
      intro stack visited enough awaits
      cases stack with
      | nil => simpa [visit, Awaits] using awaits
      | cons id stack =>
          rw [List.length_cons] at enough
          unfold visit
          by_cases known : visited.contains id = true
          · rw [if_pos known]
            have inside := Std.TreeSet.contains_iff_mem.mp known
            obtain ⟨included, back⟩ := induction stack visited (by omega) (awaits.skip inside)
            exact ⟨fun other awaited => included other (known_or_waits inside awaited), back⟩
          · rw [if_neg known]
            have fresh : id ∉ visited := by simpa using known
            have measure := @unvisited_insert_add_row antecedents visited id fresh
            have enoughLeft : ((antecedents.row id).toList ++ stack).length +
                unvisited (visited.insert id) antecedents.rows.toList ≤ bound := by
              rw [List.length_append, Array.length_toList]
              omega
            obtain ⟨included, back⟩ := induction _ _ enoughLeft awaits.visit
            exact ⟨fun other awaited => included other (visited_or_waits awaited), back⟩

private theorem reached_of_mem_visit (antecedents : Keyed DerivationId DerivationId)
    (bound : Nat) :
    ∀ (stack : List DerivationId) (visited : Std.TreeSet DerivationId),
      ∀ id ∈ visit antecedents bound stack visited, id ∈ visited ∨ ∃ root ∈ stack,
        Relation.ReflTransGen (fun id antecedent => antecedent ∈ antecedents.row id) root id := by
  induction bound with
  | zero => exact fun _ _ _ member => Or.inl member
  | succ bound induction =>
      intro stack visited id member
      cases stack with
      | nil => exact Or.inl member
      | cons first stack =>
          unfold visit at member
          split at member
          · rcases induction stack visited id member with old | ⟨root, waiting, way⟩
            · exact Or.inl old
            · exact Or.inr ⟨root, .tail _ waiting, way⟩
          · rcases induction _ _ id member with old | ⟨root, waiting, way⟩
            · rw [Std.TreeSet.mem_insert, Std.LawfulEqOrd.compare_eq_iff_eq] at old
              rcases old with rfl | old
              · exact Or.inr ⟨first, .head _, .refl⟩
              · exact Or.inl old
            · rcases List.mem_append.mp waiting with inRow | waiting
              · exact Or.inr ⟨first, .head _, .head (Array.mem_toList_iff.mp inRow) way⟩
              · exact Or.inr ⟨root, .tail _ waiting, way⟩

end Visiting

section Ancestors

variable {provenance : Provenance} {targets : List Span} {span : Span}
  {id origin : DerivationId}

private theorem ancestors_spec (provenance : Provenance) (targets : List Span) :
    (∀ id ∈ (targets.filter fun span => !span.isReflexive).filterMap provenance.root?,
      id ∈ provenance.ancestors targets) ∧
    ∀ id ∈ provenance.ancestors targets, ∀ antecedent ∈ provenance.antecedents.row id,
      antecedent ∈ provenance.ancestors targets := by
  have spec := visit_spec provenance.antecedents
    (((targets.filter fun span => !span.isReflexive).filterMap
      provenance.root?).length + provenance.antecedents.total + 1)
    ((targets.filter fun span => !span.isReflexive).filterMap provenance.root?) ∅
    (by rw [unvisited_empty]; omega) (by simp [Awaits])
  exact ⟨fun id member => spec.1 id (Or.inr member), spec.2⟩

theorem mem_ancestors (member : span ∈ targets) (irreflexive : span.isReflexive = false)
    (root : provenance.root? span = some id) (back : provenance.GoesBackTo id origin) :
    origin ∈ provenance.ancestors targets := by
  obtain ⟨roots, closed⟩ := ancestors_spec provenance targets
  induction back with
  | refl =>
      refine roots id (List.mem_filterMap.mpr ⟨span, ?_, root⟩)
      exact List.mem_filter.mpr ⟨member, by simp [irreflexive]⟩
  | tail _ step induction => exact closed _ induction _ step

theorem exists_root_of_mem_ancestors (member : origin ∈ provenance.ancestors targets) :
    ∃ span ∈ targets, span.isReflexive = false ∧
      ∃ id, provenance.root? span = some id ∧ provenance.GoesBackTo id origin := by
  rcases reached_of_mem_visit _ _ _ _ origin member with impossible | ⟨id, root, way⟩
  · simp at impossible
  · obtain ⟨span, kept, found⟩ := List.mem_filterMap.mp root
    obtain ⟨target, irreflexive⟩ := List.mem_filter.mp kept
    exact ⟨span, target, by simpa using irreflexive, id, found, way⟩

end Ancestors

/-! ## Supporting edges -/

private theorem mem_foldl_insertLabelled {edges : List Edge} {found : EdgeSet}
    {edge : Edge} :
    edge ∈ edges.foldl (fun found (edge : Edge) =>
        if edge.isEpsilon then found else found.insert edge) found ↔
      edge ∈ found ∨ (edge ∈ edges ∧ edge.isEpsilon = false) := by
  induction edges generalizing found with
  | nil => simp
  | cons first edges induction =>
      rw [List.foldl_cons, induction, List.mem_cons]
      by_cases silent : first.isEpsilon = true
      · rw [if_pos silent]
        constructor
        · rintro (old | ⟨later, labelled⟩)
          · exact Or.inl old
          · exact Or.inr ⟨Or.inr later, labelled⟩
        · rintro (old | ⟨rfl | later, labelled⟩)
          · exact Or.inl old
          · rw [silent] at labelled
            cases labelled
          · exact Or.inr ⟨later, labelled⟩
      · rw [if_neg silent, Std.TreeSet.mem_insert, Std.LawfulEqOrd.compare_eq_iff_eq]
        constructor
        · rintro ((rfl | old) | ⟨later, labelled⟩)
          · exact Or.inr ⟨Or.inl rfl, by simpa using silent⟩
          · exact Or.inl old
          · exact Or.inr ⟨Or.inr later, labelled⟩
        · rintro (old | ⟨rfl | later, labelled⟩)
          · exact Or.inl (Or.inr old)
          · exact Or.inl (Or.inl rfl)
          · exact Or.inr ⟨later, labelled⟩

/-- The edges of some derivations are the labelled edges in their rows. -/
theorem mem_edgesOf {provenance : Provenance} {derivations : Std.TreeSet DerivationId}
    {edge : Edge} :
    edge ∈ provenance.edgesOf derivations ↔
      (∃ id ∈ derivations, edge ∈ provenance.edges.row id) ∧ edge.isEpsilon = false := by
  have folded : ∀ (ids : List DerivationId) (found : EdgeSet),
      edge ∈ ids.foldl (fun found derivation =>
          (provenance.edges.row derivation).foldl (fun found (edge : Edge) =>
            if edge.isEpsilon then found else found.insert edge) found) found ↔
        edge ∈ found ∨
          ((∃ id ∈ ids, edge ∈ provenance.edges.row id) ∧ edge.isEpsilon = false) := by
    intro ids
    induction ids with
    | nil => simp
    | cons id ids induction =>
        intro found
        rw [List.foldl_cons, induction, ← Array.foldl_toList, mem_foldl_insertLabelled,
          Array.mem_toList_iff]
        simp only [List.mem_cons, or_and_right, exists_or, exists_eq_left, or_assoc]
  rw [edgesOf, Std.TreeSet.foldl_eq_foldl_toList, folded]
  simp

/-- Every labelled edge on record for a derivation that a target goes back to
supports the targets. -/
theorem mem_supportingEdges {provenance : Provenance} {targets : List Span} {span : Span}
    (member : span ∈ targets) (irreflexive : span.isReflexive = false)
    {id origin : DerivationId} (root : provenance.root? span = some id)
    (back : provenance.GoesBackTo id origin) {edge : Edge}
    (recorded : edge ∈ provenance.edges.row origin) (labelled : edge.isEpsilon = false) :
    edge ∈ provenance.supportingEdges targets :=
  mem_edgesOf.mpr ⟨⟨origin, mem_ancestors member irreflexive root back, recorded⟩, labelled⟩

/-- A supporting edge is labelled and on record for a derivation that a target goes back
to. -/
theorem exists_origin_of_mem_supportingEdges {provenance : Provenance} {targets : List Span}
    {edge : Edge} (member : edge ∈ provenance.supportingEdges targets) :
    (∃ span ∈ targets, span.isReflexive = false ∧ ∃ id origin,
      provenance.root? span = some id ∧ provenance.GoesBackTo id origin ∧
        edge ∈ provenance.edges.row origin) ∧ edge.isEpsilon = false := by
  obtain ⟨⟨origin, ancestor, recorded⟩, labelled⟩ := mem_edgesOf.mp member
  obtain ⟨span, target, irreflexive, id, root, way⟩ := exists_root_of_mem_ancestors ancestor
  exact ⟨⟨span, target, irreflexive, id, origin, root, way, recorded⟩, labelled⟩

theorem recorded_of_mem_supportingEdges {provenance : Provenance} {targets : List Span}
    {edge : Edge} (member : edge ∈ provenance.supportingEdges targets) :
    (∃ id, edge ∈ provenance.edges.row id) ∧ edge.isEpsilon = false := by
  obtain ⟨⟨_, _, _, _, origin, _, _, recorded⟩, labelled⟩ :=
    exists_origin_of_mem_supportingEdges member
  exact ⟨⟨origin, recorded⟩, labelled⟩

/-! ## Retaining what supports answers -/

section Retaining

variable {provenance : Provenance} {answers targets : List Span}

theorem mem_edges_retainSupporting {id : DerivationId} {edge : Edge}
    (member : edge ∈ (provenance.retainSupporting answers).2.edges.row id) :
    edge ∈ provenance.edges.row id := by
  rw [retainSupporting, Keyed.row_keep] at member
  split at member
  · exact member
  · simp at member

theorem root?_of_retainSupporting {span : Span} {id : DerivationId}
    (root : (provenance.retainSupporting answers).2.root? span = some id) :
    provenance.root? span = some id := by
  rw [root?, retainSupporting, Std.TreeMap.getElem?_filter', Option.filter_eq_some_iff] at root
  exact root.1

theorem goesBackTo_of_retainSupporting {id origin : DerivationId}
    (way : (provenance.retainSupporting answers).2.GoesBackTo id origin) :
    provenance.GoesBackTo id origin := by
  refine Relation.ReflTransGen.mono (fun first second step => ?_) id origin way
  rw [retainSupporting, Keyed.row_keep] at step
  split at step
  · exact step
  · simp at step

theorem mem_supportingEdges_of_retainSupporting {edge : Edge}
    (member : edge ∈ (provenance.retainSupporting answers).2.supportingEdges targets) :
    edge ∈ provenance.supportingEdges targets := by
  obtain ⟨⟨span, target, irreflexive, id, origin, root, way, recorded⟩, labelled⟩ :=
    exists_origin_of_mem_supportingEdges member
  exact mem_supportingEdges target irreflexive (root?_of_retainSupporting root)
    (goesBackTo_of_retainSupporting way) (mem_edges_retainSupporting recorded) labelled

theorem goesBackTo_retainSupporting {id origin : DerivationId}
    (kept : ∀ other, provenance.GoesBackTo id other → other ∈ provenance.ancestors answers)
    (way : provenance.GoesBackTo id origin) :
    (provenance.retainSupporting answers).2.GoesBackTo id origin := by
  induction way with
  | refl => exact .refl
  | tail before step induction =>
      refine .tail induction ?_
      rw [retainSupporting, Keyed.row_keep,
        if_pos (Std.TreeSet.contains_iff_mem.mpr (kept _ before))]
      exact step

/-- Retaining what supports the answers keeps every edge that supports one of
them. -/
theorem mem_supportingEdges_retainSupporting {span : Span} (answer : span ∈ answers)
    (member : span ∈ targets) (irreflexive : span.isReflexive = false)
    {id origin : DerivationId} (root : provenance.root? span = some id)
    (back : provenance.GoesBackTo id origin) {edge : Edge}
    (recorded : edge ∈ provenance.edges.row origin) (labelled : edge.isEpsilon = false) :
    edge ∈ (provenance.retainSupporting answers).2.supportingEdges targets := by
  have kept : ∀ other, provenance.GoesBackTo id other → other ∈ provenance.ancestors answers :=
    fun other way => mem_ancestors answer irreflexive root way
  have known : ∀ other, provenance.GoesBackTo id other →
      (provenance.ancestors answers).contains other = true :=
    fun other way => Std.TreeSet.contains_iff_mem.mpr (kept other way)
  have keptRoot : (provenance.retainSupporting answers).2.root? span = some id := by
    rw [root?] at root
    rw [root?, retainSupporting, Std.TreeMap.getElem?_filter', root]
    simp [Option.filter, known id .refl]
  refine mem_supportingEdges member irreflexive keptRoot
    (goesBackTo_retainSupporting kept back) ?_ labelled
  rw [retainSupporting, Keyed.row_keep, if_pos (known origin back)]
  exact recorded

end Retaining

end Provenance

end GrammarReach
