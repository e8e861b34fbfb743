import GrammarReach.Proofs.Derivation.Tables
import GrammarReach.Proofs.Saturation.Wirings

/-!
# Completing a join

The search for derivations of the bodies of a join goes through the positions and
looks each body up where a link asks for it.  It finds exactly the combinations
that the join connects.
-/

namespace GrammarReach

/-! ## Places and their derivations -/

namespace DerivationTable

/-- The table has the given derivations at the given places. -/
def Holds (table : DerivationTable) (ids : List DerivationId)
    (bodies : List Derivation) : Prop :=
  ids.map table.derivation? = bodies.map some

namespace Holds

variable {table : DerivationTable} {ids : List DerivationId} {bodies : List Derivation}

theorem length_eq (holds : table.Holds ids bodies) : ids.length = bodies.length := by
  simpa using congrArg List.length holds

theorem getElem?_map (holds : table.Holds ids bodies) (position : Nat) :
    (ids[position]?).map table.derivation? = (bodies[position]?).map some := by
  rw [← List.getElem?_map, ← List.getElem?_map, holds]

theorem of_body (holds : table.Holds ids bodies) {position : Nat}
    {body : Derivation} (found : bodies[position]? = some body) :
    ∃ id, ids[position]? = some id ∧ table.derivation? id = some body := by
  have pair := holds.getElem?_map position
  rw [found] at pair
  obtain ⟨id, idFound, same⟩ := Option.map_eq_some_iff.mp pair
  exact ⟨id, idFound, same⟩

theorem of_id (holds : table.Holds ids bodies) {position : Nat} {id : DerivationId}
    (found : ids[position]? = some id) :
    ∃ body, bodies[position]? = some body ∧ table.derivation? id = some body := by
  have pair := holds.getElem?_map position
  rw [found] at pair
  obtain ⟨body, bodyFound, same⟩ := Option.map_eq_some_iff.mp pair.symm
  exact ⟨body, bodyFound, same.symm⟩

theorem of_mem (holds : table.Holds ids bodies) {id : DerivationId}
    (member : id ∈ ids) : ∃ body ∈ bodies, table.derivation? id = some body := by
  obtain ⟨position, found⟩ := List.mem_iff_getElem?.mp member
  obtain ⟨body, bodyFound, same⟩ := holds.of_id found
  exact ⟨body, List.mem_of_getElem? bodyFound, same⟩

end Holds

theorem exists_holds {table : DerivationTable} {ids : List DerivationId}
    (known : ∀ id ∈ ids, ∃ body, table.derivation? id = some body) :
    ∃ bodies, table.Holds ids bodies := by
  induction ids with
  | nil => exact ⟨[], rfl⟩
  | cons id ids induction =>
      obtain ⟨body, found⟩ := known id (by simp)
      obtain ⟨bodies, holds⟩ := induction fun other member => known other (by simp [member])
      refine ⟨body :: bodies, ?_⟩
      simp only [Holds, List.map_cons, List.cons.injEq]
      exact ⟨found, holds⟩

theorem exists_places {table : DerivationTable} {bodies : List Derivation}
    (known : ∀ body ∈ bodies, ∃ id, table.derivation? id = some body) :
    ∃ ids, table.Holds ids bodies := by
  induction bodies with
  | nil => exact ⟨[], rfl⟩
  | cons body bodies induction =>
      obtain ⟨id, found⟩ := known body (by simp)
      obtain ⟨ids, holds⟩ := induction fun other member => known other (by simp [member])
      refine ⟨id :: ids, ?_⟩
      simp only [Holds, List.map_cons, List.cons.injEq]
      exact ⟨found, holds⟩

end DerivationTable

/-- The segments of the derivation at each position. -/
def Derivation.segmentsAt (bodies : List Derivation) (position : Nat) : List Span :=
  ((bodies[position]?).map Derivation.segments).getD []

theorem Derivation.segmentsAt_eq {bodies : List Derivation} {position : Nat}
    {body : Derivation} (found : bodies[position]? = some body) :
    segmentsAt bodies position = body.segments := by
  simp [segmentsAt, found]

/-! ## Bindings -/

namespace Binding

/-- Every bound position is bound to the derivation of the given list. -/
structure Agrees (binding : Binding) (ids : List DerivationId) : Prop where
  length_eq : binding.length = ids.length
  bound : ∀ position id, binding.at? position = some id → ids[position]? = some id

theorem at?_set {binding : Binding} {position other : Nat} {id : DerivationId}
    (inside : position < binding.length) :
    at? (binding.set position (some id)) other =
      if position = other then some id else binding.at? other := by
  unfold at?
  by_cases same : position = other
  · subst same
    simp [inside]
  · simp [same]

theorem at?_map_some (ids : List DerivationId) (position : Nat) :
    at? (ids.map some) position = ids[position]? := by
  unfold at?
  cases found : ids[position]? with
  | none => simp [found]
  | some id => simp [found]

/-- Binding a position to its derivation keeps the agreement. -/
theorem Agrees.set {binding : Binding} {ids : List DerivationId}
    (agrees : binding.Agrees ids) {position : Nat} {id : DerivationId}
    (found : ids[position]? = some id) :
    Agrees (binding.set position (some id)) ids := by
  have inside : position < binding.length := by
    rw [agrees.length_eq]
    exact (List.getElem?_eq_some_iff.mp found).1
  refine ⟨by rw [List.length_set, agrees.length_eq], ?_⟩
  intro other otherId bound
  rw [at?_set inside] at bound
  split at bound
  · rename_i same
    cases bound
    exact same ▸ found
  · exact agrees.bound other otherId bound

theorem eq_map_some {binding : Binding}
    (full : ∀ position < binding.length, (binding.at? position).isSome = true) :
    binding = (binding.filterMap id).map some := by
  induction binding with
  | nil => rfl
  | cons first binding induction =>
      have firstBound := full 0 (by simp)
      cases first with
      | none => simp [at?] at firstBound
      | some id =>
          have rest := induction fun position inside => by
            simpa [at?] using full (position + 1) (by simpa using inside)
          simpa using rest

theorem Agrees.filterMap_eq {binding : Binding} {ids : List DerivationId}
    (agrees : binding.Agrees ids)
    (full : ∀ position < binding.length, (binding.at? position).isSome = true) :
    binding.filterMap id = ids := by
  apply List.ext_getElem?
  intro position
  have whole := at?_map_some (binding.filterMap id) position
  rw [← eq_map_some full] at whole
  rw [← whole]
  by_cases inside : position < binding.length
  · obtain ⟨found, bound⟩ := Option.isSome_iff_exists.mp (full position inside)
    rw [bound, agrees.bound position found bound]
  · have outside : ids.length ≤ position := by
      rw [← agrees.length_eq]
      exact Nat.le_of_not_lt inside
    simp [at?, inside, outside]

section Segments

variable {table : DerivationTable} {binding : Binding} {ids : List DerivationId}
  {bodies : List Derivation}

theorem Agrees.span?_of_segment? (agrees : binding.Agrees ids)
    (holds : table.Holds ids bodies) {reference : SegmentRef} {span : Span}
    (found : binding.segment? table reference = some span) :
    reference.span? (Derivation.segmentsAt bodies) = some span := by
  simp only [segment?, Option.bind_eq_bind, Option.bind_eq_some_iff] at found
  obtain ⟨id, bound, derivation, place, segment⟩ := found
  obtain ⟨body, bodyFound, bodyPlace⟩ := holds.of_id (agrees.bound _ _ bound)
  rw [place] at bodyPlace
  cases bodyPlace
  rw [SegmentRef.span?, Derivation.segmentsAt_eq bodyFound]
  exact segment

theorem segment?_map_some (holds : table.Holds ids bodies) (reference : SegmentRef) :
    segment? table (ids.map some) reference =
      reference.span? (Derivation.segmentsAt bodies) := by
  simp only [segment?, at?_map_some]
  cases found : ids[reference.body]? with
  | none =>
      have missing : bodies[reference.body]? = none := by
        rw [List.getElem?_eq_none_iff] at found ⊢
        exact holds.length_eq ▸ found
      simp [SegmentRef.span?, Derivation.segmentsAt, missing]
  | some id =>
      obtain ⟨body, bodyFound, place⟩ := holds.of_id found
      simp [SegmentRef.span?, Derivation.segmentsAt_eq bodyFound, place]

end Segments

end Binding

namespace Join

section Chains

variable {table : DerivationTable} {ids : List DerivationId} {bodies : List Derivation}

theorem chainSpan?_map_some (holds : table.Holds ids bodies) (chain : List SegmentRef) :
    chainSpan? table (ids.map some) chain =
      SegmentRef.chainSpan? (Derivation.segmentsAt bodies) chain := by
  simp only [chainSpan?, SegmentRef.chainSpan?, Binding.segment?_map_some holds]

theorem assemble?_eq (holds : table.Holds ids bodies) (join : Join) :
    join.assemble? table ids =
      (join.wiring.mapM (SegmentRef.chainSpan? (Derivation.segmentsAt bodies))).map
        fun segments => { derivation := ⟨join.head, segments⟩, antecedents := ids } := by
  have chains : chainSpan? table (ids.map some) =
      SegmentRef.chainSpan? (Derivation.segmentsAt bodies) :=
    funext (chainSpan?_map_some holds)
  rw [assemble?, chains]

end Chains

theorem linksHold_iff {table : DerivationTable} {join : Join} {binding : Binding} :
    join.linksHold table binding = true ↔
      ∀ link ∈ join.links, ∀ left right,
        binding.segment? table link.1 = some left →
        binding.segment? table link.2 = some right → left.stop = right.start := by
  rw [linksHold, List.all_eq_true]
  constructor
  · intro all link member left right leftFound rightFound
    have passed := all link member
    simp only [leftFound, rightFound] at passed
    simpa using passed
  · rintro meets ⟨first, second⟩ member
    cases leftFound : binding.segment? table first with
    | none => simp only [leftFound]
    | some left =>
        cases rightFound : binding.segment? table second with
        | none => simp only [leftFound, rightFound]
        | some right =>
            simpa only [leftFound, rightFound, beq_iff_eq] using
              meets _ member left right leftFound rightFound

theorem fits_iff {table : DerivationTable} {join : Join} {position : Nat}
    {id : DerivationId} :
    join.fits table position id = true ↔
      ∃ body, table.derivation? id = some body ∧
        join.arityAt position ≤ body.dimension := by
  unfold fits
  cases found : table.derivation? id with
  | none => simp
  | some body => simp

private theorem foldl_shorter_mem (first : Array DerivationId)
    (others : List (Array DerivationId)) :
    others.foldl (fun best row => if row.size < best.size then row else best) first ∈
      first :: others := by
  induction others generalizing first with
  | nil => simp
  | cons row others induction =>
      rw [List.foldl_cons]
      rcases List.mem_cons.mp (induction (if row.size < first.size then row else first))
        with same | later
      · rw [same]
        split
        · simp
        · simp
      · exact List.mem_cons_of_mem _ (List.mem_cons_of_mem _ later)

theorem shortest?_mem {rows : List (Array DerivationId)} {row : Array DerivationId}
    (found : shortest? rows = some row) : row ∈ rows := by
  cases rows with
  | nil => simp [shortest?] at found
  | cons first others =>
      simp only [shortest?, Option.some.injEq] at found
      subst found
      exact foldl_shorter_mem first others

/-! ## Positions still to bind -/

/-- Every position is bound or still to come. -/
def Covered (count : Nat) (rest : List (NonterminalId × Nat)) (binding : Binding) :
    Prop :=
  ∀ position < count, position ∈ rest.map Prod.snd ∨ (binding.at? position).isSome = true

section Covered

variable {count position : Nat} {name : NonterminalId} {rest : List (NonterminalId × Nat)}
  {binding : Binding}

theorem Covered.full (covered : Covered count [] binding) :
    ∀ position < count, (binding.at? position).isSome = true :=
  fun position inside => (covered position inside).resolve_left (by simp)

theorem Covered.skip (covered : Covered count ((name, position) :: rest) binding)
    (bound : (binding.at? position).isSome = true) : Covered count rest binding := by
  intro other inside
  rcases covered other inside with here | done
  · rcases List.mem_cons.mp here with rfl | inRest
    · exact Or.inr bound
    · exact Or.inl inRest
  · exact Or.inr done

theorem Covered.bind (covered : Covered count ((name, position) :: rest) binding)
    (inside : position < binding.length) (id : DerivationId) :
    Covered count rest (binding.set position (some id)) := by
  intro other otherInside
  rw [Binding.at?_set inside]
  by_cases same : position = other
  · exact Or.inr (by simp [same])
  · rw [if_neg same]
    rcases covered other otherInside with here | done
    · rcases List.mem_cons.mp here with same' | inRest
      · exact absurd same'.symm same
      · exact Or.inl inRest
    · exact Or.inr done

end Covered

theorem zipIdx_places (join : Join) :
    ∀ item ∈ join.bodies.zipIdx, join.bodies[item.2]? = some item.1 := by
  rintro ⟨body, position⟩ member
  exact List.mk_mem_zipIdx_iff_getElem?.mp member

theorem zipIdx_covers (join : Join) (binding : Binding) :
    Covered join.bodies.length join.bodies.zipIdx binding := by
  intro position inside
  rw [List.mem_map]
  exact Or.inl ⟨(join.bodies[position], position),
    List.mk_mem_zipIdx_iff_getElem?.mpr (List.getElem?_eq_getElem inside), rfl⟩

/-! ## Everything that is found is connected -/

section Sound

variable {table : DerivationTable} {join : Join}

/-- The derivation at a place can be the body at a position. -/
def Suits (table : DerivationTable) (join : Join) (position : Nat)
    (id : DerivationId) : Prop :=
  ∃ body, table.derivation? id = some body ∧
    join.bodies[position]? = some body.nonterminal ∧
    join.arityAt position ≤ body.dimension

/-- Every choice has the nonterminal of the body. -/
theorem nonterminal_of_mem_choices (coherent : table.Coherent) {binding : Binding}
    {position : Nat} {body : NonterminalId} {id : DerivationId}
    (member : id ∈ join.choices table binding position body) :
    ∃ derivation, table.derivation? id = some derivation ∧
      derivation.nonterminal = body := by
  unfold choices at member
  cases found : shortest? ((join.links.filterMap
      (demand? table binding position body)).map table.atBoundary) with
  | none =>
      simp only [found, Option.getD_none] at member
      exact (coherent.nonterminals body id).mp member
  | some row =>
      simp only [found, Option.getD_some] at member
      obtain ⟨boundary, boundaryMember, rfl⟩ := List.mem_map.mp (shortest?_mem found)
      obtain ⟨link, _, asked⟩ := List.mem_filterMap.mp boundaryMember
      obtain ⟨derivation, place, inBoundaries⟩ :=
        (coherent.boundaries boundary id).mp member
      refine ⟨derivation, place, ?_⟩
      rw [← (DerivationTable.mem_boundariesOf.mp inBoundaries).1]
      simp only [demand?] at asked
      split at asked
      · obtain ⟨span, _, rfl⟩ := Option.map_eq_some_iff.mp asked
        rfl
      · split at asked
        · obtain ⟨span, _, rfl⟩ := Option.map_eq_some_iff.mp asked
          rfl
        · cases asked

/-- How far a search is: what is bound is suitable and linked, and what is not bound is
still to come. -/
private structure Progress (table : DerivationTable) (join : Join)
    (rest : List (NonterminalId × Nat)) (binding : Binding) : Prop where
  places : ∀ item ∈ rest, join.bodies[item.2]? = some item.1
  length : binding.length = join.bodies.length
  suits : ∀ position id, binding.at? position = some id → join.Suits table position id
  covered : Covered join.bodies.length rest binding
  links : join.linksHold table binding = true

section Progress

variable {body : NonterminalId} {position : Nat} {rest : List (NonterminalId × Nat)}
  {binding : Binding}

private theorem Progress.skip (progress : Progress table join ((body, position) :: rest) binding)
    (bound : (binding.at? position).isSome = true) : Progress table join rest binding :=
  ⟨fun item inRest => progress.places item (by simp [inRest]), progress.length,
    progress.suits, progress.covered.skip bound, progress.links⟩

private theorem Progress.bind (coherent : table.Coherent)
    (progress : Progress table join ((body, position) :: rest) binding) {id : DerivationId}
    (chosen : id ∈ join.choices table binding position body)
    (fitting : join.fits table position id = true)
    (meets : join.linksHold table (binding.set position (some id)) = true) :
    Progress table join rest (binding.set position (some id)) := by
  have place := progress.places (body, position) (by simp)
  have inside : position < binding.length := by
    rw [progress.length]
    exact (List.getElem?_eq_some_iff.mp place).1
  have suitable : join.Suits table position id := by
    obtain ⟨derivation, derivationFound, arity⟩ := fits_iff.mp fitting
    obtain ⟨chosenBody, chosenFound, sameName⟩ := nonterminal_of_mem_choices coherent chosen
    rw [derivationFound] at chosenFound
    cases chosenFound
    exact ⟨derivation, derivationFound, sameName ▸ place, arity⟩
  refine ⟨fun item inRest => progress.places item (by simp [inRest]),
    by simpa using progress.length, fun other otherId bound => ?_,
    progress.covered.bind inside id, meets⟩
  rw [Binding.at?_set inside] at bound
  split at bound
  · rename_i same
    cases bound
    exact same ▸ suitable
  · exact progress.suits other otherId bound

end Progress

/-- A combination of suitable derivations that the links connect. -/
private structure Sound (table : DerivationTable) (join : Join) (ids : List DerivationId) :
    Prop where
  length : ids.length = join.bodies.length
  suits : ∀ position id, ids[position]? = some id → join.Suits table position id
  links : join.linksHold table (ids.map some) = true

private theorem Progress.sound {binding : Binding}
    (progress : Progress table join [] binding) :
    Sound table join (binding.filterMap id) := by
  have full : ∀ position < binding.length, (binding.at? position).isSome = true :=
    progress.length ▸ progress.covered.full
  have whole := Binding.eq_map_some full
  refine ⟨?_, fun position id found => progress.suits position id ?_, whole ▸ progress.links⟩
  · have length := congrArg List.length whole
    rw [List.length_map] at length
    exact length.symm.trans progress.length
  · rw [whole, Binding.at?_map_some]
    exact found

private theorem sound_of_complete (coherent : table.Coherent)
    {rest : List (NonterminalId × Nat)} {binding : Binding}
    (progress : Progress table join rest binding) {ids : List DerivationId}
    (member : ids ∈ join.complete table rest binding) : Sound table join ids := by
  induction rest generalizing binding with
  | nil =>
      simp only [complete, List.mem_singleton] at member
      rw [member]
      exact progress.sound
  | cons item rest induction =>
      obtain ⟨body, position⟩ := item
      unfold complete at member
      by_cases bound : (binding.at? position).isSome = true
      · rw [if_pos bound] at member
        exact induction (progress.skip bound) member
      · rw [if_neg bound] at member
        obtain ⟨id, chosen, found⟩ := List.mem_flatMap.mp member
        rw [Array.mem_toList_iff] at chosen
        by_cases fitting : join.fits table position id = true
        · rw [if_pos fitting] at found
          by_cases meets : join.linksHold table (binding.set position (some id)) = true
          · simp only [meets, if_true] at found
            exact induction (progress.bind coherent chosen fitting meets) found
          · simp only [meets] at found
            simp at found
        · rw [if_neg fitting] at found
          simp at found

private theorem Sound.bodies {ids : List DerivationId} (sound : Sound table join ids) :
    ∃ bodies, table.Holds ids bodies ∧
      bodies.map Derivation.nonterminal = join.bodies ∧
      ∀ position < join.bodies.length,
        join.arityAt position ≤ (Derivation.segmentsAt bodies position).length := by
  have known : ∀ other ∈ ids, ∃ otherBody, table.derivation? other = some otherBody := by
    intro other inIds
    obtain ⟨position, found⟩ := List.mem_iff_getElem?.mp inIds
    obtain ⟨body, place, _⟩ := sound.suits position other found
    exact ⟨body, place⟩
  obtain ⟨bodies, holds⟩ := DerivationTable.exists_holds known
  have bodyAt : ∀ position body, bodies[position]? = some body →
      join.bodies[position]? = some body.nonterminal ∧
        join.arityAt position ≤ body.dimension := by
    intro position body found
    obtain ⟨id, idFound, place⟩ := holds.of_body found
    obtain ⟨sameBody, samePlace, name, arity⟩ := sound.suits position id idFound
    rw [place] at samePlace
    cases samePlace
    exact ⟨name, arity⟩
  have sizes : bodies.length = join.bodies.length := holds.length_eq.symm.trans sound.length
  refine ⟨bodies, holds, ?_, fun position inside => ?_⟩
  · apply List.ext_getElem?
    intro position
    rw [List.getElem?_map]
    cases found : bodies[position]? with
    | none =>
        have outside := List.getElem?_eq_none_iff.mp found
        rw [sizes] at outside
        exact (List.getElem?_eq_none_iff.mpr outside).symm
    | some body => exact (bodyAt position body found).1.symm
  · have found := List.getElem?_eq_getElem (sizes ▸ inside : position < bodies.length)
    rw [Derivation.segmentsAt_eq found]
    exact (bodyAt position _ found).2

private theorem replicate_none_at? (length position : Nat) :
    Binding.at? (List.replicate length none) position = none := by
  simp only [Binding.at?, List.getElem?_replicate]
  split
  · rfl
  · rfl

theorem at?_single {join : Join} {position other : Nat} {id : DerivationId}
    (inside : position < join.bodies.length) :
    Binding.at? ((List.replicate join.bodies.length none).set position (some id)) other =
      if position = other then some id else none := by
  rw [Binding.at?_set (by simpa using inside), replicate_none_at?]

/-- A combination consists of derivations of the bodies that the links connect. -/
theorem combinations_sound (coherent : table.Coherent) {position : Nat}
    {id : DerivationId} {derivation : Derivation} {ids : List DerivationId}
    (place : table.derivation? id = some derivation)
    (body : join.bodies[position]? = some derivation.nonterminal)
    (member : ids ∈ join.combinations table position id derivation) :
    ∃ bodies, table.Holds ids bodies ∧
      bodies.map Derivation.nonterminal = join.bodies ∧
      (∀ position < join.bodies.length,
        join.arityAt position ≤ (Derivation.segmentsAt bodies position).length) ∧
      ∀ link ∈ join.links, ∀ left right,
        link.1.span? (Derivation.segmentsAt bodies) = some left →
        link.2.span? (Derivation.segmentsAt bodies) = some right →
        left.stop = right.start := by
  have inside : position < join.bodies.length := (List.getElem?_eq_some_iff.mp body).1
  unfold combinations at member
  by_cases small : derivation.dimension < join.arityAt position
  · simp [small] at member
  · rw [if_neg small] at member
    by_cases meets : join.linksHold table
        ((List.replicate join.bodies.length none).set position (some id)) = true
    · simp only [meets, if_true] at member
      have progress : Progress table join join.bodies.zipIdx
          ((List.replicate join.bodies.length none).set position (some id)) := by
        refine ⟨zipIdx_places join, by simp, fun other otherId bound => ?_,
          zipIdx_covers join _, meets⟩
        rw [at?_single inside] at bound
        split at bound
        · rename_i same
          cases bound
          subst same
          exact ⟨derivation, place, body, Nat.le_of_not_lt small⟩
        · cases bound
      have sound := sound_of_complete coherent progress member
      obtain ⟨bodies, holds, names, arities⟩ := sound.bodies
      refine ⟨bodies, holds, names, arities, fun link inLinks left right leftFound rightFound => ?_⟩
      rw [← Binding.segment?_map_some holds] at leftFound rightFound
      exact linksHold_iff.mp sound.links link inLinks left right leftFound rightFound
    · simp only [meets] at member
      simp at member

end Sound

/-! ## Everything that is connected is found -/

section Complete

variable {table : DerivationTable} {join : Join} {ids : List DerivationId}
  {bodies : List Derivation}

private theorem demanded_mem_boundariesOf (holds : table.Holds ids bodies)
    (inScope : join.Scoped) {segments : List Span}
    (connects : join.Connects (Derivation.segmentsAt bodies) segments)
    {binding : Binding} (agrees : binding.Agrees ids) {position : Nat}
    {body : Derivation} (bodyFound : bodies[position]? = some body)
    (arity : join.arityAt position ≤ body.segments.length)
    {link : SegmentRef × SegmentRef} (inLinks : link ∈ join.links) {boundary : Boundary}
    (asked : demand? table binding position body.nonterminal link = some boundary) :
    boundary ∈ DerivationTable.boundariesOf body := by
  have segmentAt : ∀ reference : SegmentRef, reference.body = position →
      reference.segment < join.arityAt position →
      ∃ span, body.segments[reference.segment]? = some span ∧
        reference.span? (Derivation.segmentsAt bodies) = some span := by
    intro reference here below
    have bound : reference.segment < body.segments.length := Nat.lt_of_lt_of_le below arity
    refine ⟨body.segments[reference.segment], List.getElem?_eq_getElem bound, ?_⟩
    rw [SegmentRef.span?, here, Derivation.segmentsAt_eq bodyFound]
    exact List.getElem?_eq_getElem bound
  rw [DerivationTable.mem_boundariesOf]
  obtain ⟨left, right⟩ := link
  simp only [demand?] at asked
  split at asked
  · rename_i here
    obtain ⟨rightSpan, rightFound, rfl⟩ := Option.map_eq_some_iff.mp asked
    obtain ⟨leftSpan, leftFound, leftNamed⟩ := segmentAt left here.1
      (here.1 ▸ inScope.left _ inLinks)
    have meets := connects.linked _ inLinks leftSpan rightSpan leftNamed
      (agrees.span?_of_segment? holds rightFound)
    exact ⟨rfl, leftSpan, leftFound, meets.symm⟩
  · split at asked
    · rename_i here
      obtain ⟨leftSpan, leftFound, rfl⟩ := Option.map_eq_some_iff.mp asked
      obtain ⟨rightSpan, rightFound, rightNamed⟩ := segmentAt right here.1
        (here.1 ▸ inScope.right _ inLinks)
      have meets := connects.linked _ inLinks leftSpan rightSpan
        (agrees.span?_of_segment? holds leftFound) rightNamed
      exact ⟨rfl, rightSpan, rightFound, meets⟩
    · cases asked

theorem mem_choices (coherent : table.Coherent) (holds : table.Holds ids bodies)
    (inScope : join.Scoped)
    (names : bodies.map Derivation.nonterminal = join.bodies)
    {segments : List Span} (connects : join.Connects (Derivation.segmentsAt bodies) segments)
    {binding : Binding} (agrees : binding.Agrees ids) {position : Nat}
    {body : Derivation} {id : DerivationId} (bodyFound : bodies[position]? = some body)
    (found : ids[position]? = some id) :
    id ∈ join.choices table binding position body.nonterminal := by
  obtain ⟨sameId, sameFound, place⟩ := holds.of_body bodyFound
  rw [found] at sameFound
  cases sameFound
  have inside : position < join.bodies.length := by
    rw [← names, List.length_map]
    exact (List.getElem?_eq_some_iff.mp bodyFound).1
  have arity := connects.arities position inside
  rw [Derivation.segmentsAt_eq bodyFound] at arity
  unfold choices
  cases shortest : shortest? ((join.links.filterMap
      (demand? table binding position body.nonterminal)).map table.atBoundary) with
  | none =>
      simp only [shortest, Option.getD_none]
      exact (coherent.nonterminals _ id).mpr ⟨body, place, rfl⟩
  | some row =>
      simp only [shortest, Option.getD_some]
      obtain ⟨boundary, boundaryMember, rfl⟩ := List.mem_map.mp (shortest?_mem shortest)
      obtain ⟨link, inLinks, asked⟩ := List.mem_filterMap.mp boundaryMember
      exact (coherent.boundaries boundary id).mpr ⟨body, place,
        demanded_mem_boundariesOf holds inScope connects agrees bodyFound arity inLinks asked⟩

theorem linksHold_of_agrees (holds : table.Holds ids bodies)
    {segments : List Span} (connects : join.Connects (Derivation.segmentsAt bodies) segments)
    {binding : Binding} (agrees : binding.Agrees ids) :
    join.linksHold table binding = true := by
  rw [linksHold_iff]
  intro link member left right leftFound rightFound
  exact connects.linked link member left right
    (agrees.span?_of_segment? holds leftFound) (agrees.span?_of_segment? holds rightFound)

private theorem mem_complete (coherent : table.Coherent) (holds : table.Holds ids bodies)
    (inScope : join.Scoped)
    (names : bodies.map Derivation.nonterminal = join.bodies)
    {segments : List Span}
    (connects : join.Connects (Derivation.segmentsAt bodies) segments) :
    ∀ (rest : List (NonterminalId × Nat)) (binding : Binding),
      (∀ item ∈ rest, join.bodies[item.2]? = some item.1) →
      binding.Agrees ids → Covered join.bodies.length rest binding →
      ids ∈ join.complete table rest binding := by
  have sizes : ids.length = join.bodies.length := by
    rw [holds.length_eq, ← names, List.length_map]
  intro rest
  induction rest with
  | nil =>
      intro binding _ agrees covered
      have length := agrees.length_eq.trans sizes
      simp only [complete, List.mem_singleton]
      exact (agrees.filterMap_eq (length ▸ covered.full)).symm
  | cons item rest induction =>
      obtain ⟨name, position⟩ := item
      intro binding places agrees covered
      have later : ∀ item ∈ rest, join.bodies[item.2]? = some item.1 :=
        fun item inRest => places item (by simp [inRest])
      unfold complete
      by_cases bound : (binding.at? position).isSome = true
      · rw [if_pos bound]
        exact induction binding later agrees (covered.skip bound)
      · rw [if_neg bound]
        have place := places (name, position) (by simp)
        rw [← names, List.getElem?_map] at place
        obtain ⟨body, bodyFound, rfl⟩ := Option.map_eq_some_iff.mp place
        obtain ⟨id, found, idPlace⟩ := holds.of_body bodyFound
        have inside : position < join.bodies.length := by
          rw [← names, List.length_map]
          exact (List.getElem?_eq_some_iff.mp bodyFound).1
        have arity := connects.arities position inside
        rw [Derivation.segmentsAt_eq bodyFound] at arity
        have fitting : join.fits table position id = true :=
          fits_iff.mpr ⟨body, idPlace, arity⟩
        have extended := agrees.set found
        refine List.mem_flatMap.mpr ⟨id, Array.mem_toList_iff.mpr
          (mem_choices coherent holds inScope names connects agrees bodyFound found), ?_⟩
        rw [if_pos fitting]
        simp only [linksHold_of_agrees holds connects extended, if_true]
        have insideBinding : position < binding.length := by
          rw [agrees.length_eq, sizes]
          exact inside
        exact induction _ later extended (covered.bind insideBinding id)

/-- Connected derivations are a combination, from whichever of them the search
starts. -/
theorem mem_combinations (coherent : table.Coherent) (holds : table.Holds ids bodies)
    (inScope : join.Scoped)
    (names : bodies.map Derivation.nonterminal = join.bodies)
    {segments : List Span} (connects : join.Connects (Derivation.segmentsAt bodies) segments)
    {position : Nat} {id : DerivationId} {derivation : Derivation}
    (found : ids[position]? = some id) (place : table.derivation? id = some derivation) :
    ids ∈ join.combinations table position id derivation := by
  have sizes : ids.length = join.bodies.length := by
    rw [holds.length_eq, ← names, List.length_map]
  have inside : position < join.bodies.length :=
    sizes ▸ (List.getElem?_eq_some_iff.mp found).1
  obtain ⟨body, bodyFound, bodyPlace⟩ := holds.of_id found
  rw [place] at bodyPlace
  cases bodyPlace
  have arity := connects.arities position inside
  rw [Derivation.segmentsAt_eq bodyFound] at arity
  have agrees : Binding.Agrees
      ((List.replicate join.bodies.length none).set position (some id)) ids := by
    refine ⟨by simp [sizes], ?_⟩
    intro other otherId bound
    rw [at?_single inside] at bound
    split at bound
    · rename_i same
      cases bound
      exact same ▸ found
    · cases bound
  have large : ¬ derivation.dimension < join.arityAt position := Nat.not_lt.mpr arity
  unfold combinations
  rw [if_neg large]
  simp only [linksHold_of_agrees holds connects agrees, if_true]
  exact mem_complete coherent holds inScope names connects _ _ (zipIdx_places join) agrees
    (zipIdx_covers join _)

end Complete

end Join

end GrammarReach
