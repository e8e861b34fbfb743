import GrammarReach.Proofs.Saturation.Combinations
import GrammarReach.Proofs.Saturation.WordArities

/-!
# The search for a join finds every tuple once

A nested loop over all derivations of a table would try every tuple of bodies and keep those
that the wiring of a concatenation fits together.  The search binds the bodies in turn and
looks each up where a link asks for it.  It comes to the same tuples, to each of them once.
-/

namespace GrammarReach

/-! ## The tuples of a nested loop -/

/-- The segment that a reference names in the derivations at the given places. -/
def DerivationTable.segment? (table : DerivationTable) (ids : List DerivationId)
    (reference : SegmentRef) : Option Span := do
  let id ← ids[reference.body]?
  let derivation ← table.derivation? id
  derivation.segments[reference.segment]?

/-- The derivations at the given places fit the bodies of a concatenation: each has the
nonterminal of its body and the segments that the wiring refers to, and neighbours in a chain
meet at a vertex. -/
structure ConcatenationRule.Fits (rule : ConcatenationRule) (table : DerivationTable)
    (ids : List DerivationId) : Prop where
  length : ids.length = rule.bodies.length
  bodies : ∀ (position : Nat) (id : DerivationId) (name : Nonterminal),
    ids[position]? = some id → rule.bodies[position]? = some name →
      ∃ derivation, table.derivation? id = some derivation ∧
        table.nonterminals.id? name = some derivation.nonterminal
  segments : ∀ reference ∈ rule.wiring.flatten, ∃ span, table.segment? ids reference = some span
  links : ∀ link ∈ rule.links, ∀ left right, table.segment? ids link.1 = some left →
    table.segment? ids link.2 = some right → left.stop = right.start

namespace Join

variable {table : DerivationTable} {join : Join} {binding : Binding}
  {rest : List (NonterminalId × Nat)} {ids : List DerivationId}

theorem complete_cons {place : Nat} (body : NonterminalId)
    (unbound : ¬ (binding.at? place).isSome = true) :
    join.complete table ((body, place) :: rest) binding =
      ((join.choices table binding place body).toList.filter fun id =>
        join.fits table place id && join.linksHold table (binding.set place (some id))).flatMap
          fun id => join.complete table rest (binding.set place (some id)) := by
  rw [complete, if_neg unbound]
  induction (join.choices table binding place body).toList with
  | nil => rfl
  | cons id ids induction =>
      rw [List.flatMap_cons, induction, List.filter_cons]
      by_cases fitting : join.fits table place id = true
      · by_cases meets : join.linksHold table (binding.set place (some id)) = true
        · simp [fitting, meets]
        · simp [fitting, meets]
      · simp [fitting]

/-! ## What is bound stays bound -/

/-- The positions that are still to come are positions of the binding, and all others are
bound. -/
structure Open (rest : List (NonterminalId × Nat)) (binding : Binding) : Prop where
  covered : Covered binding.length rest binding
  inside : ∀ item ∈ rest, item.2 < binding.length

section Open

variable {body : NonterminalId} {place : Nat}

theorem Open.skip (unfinished : Open ((body, place) :: rest) binding)
    (bound : (binding.at? place).isSome = true) : Open rest binding :=
  ⟨unfinished.covered.skip bound,
    fun item inRest => unfinished.inside item (List.mem_cons_of_mem _ inRest)⟩

theorem Open.bind (unfinished : Open ((body, place) :: rest) binding) (id : DerivationId) :
    Open rest (binding.set place (some id)) := by
  constructor
  · rw [List.length_set]
    exact unfinished.covered.bind (unfinished.inside _ List.mem_cons_self) id
  · rw [List.length_set]
    exact fun item inRest => unfinished.inside item (List.mem_cons_of_mem _ inRest)

end Open

theorem getElem?_of_mem_complete (unfinished : Open rest binding)
    (member : ids ∈ join.complete table rest binding) {position : Nat} {id : DerivationId}
    (bound : binding.at? position = some id) : ids[position]? = some id := by
  induction rest generalizing binding with
  | nil =>
      simp only [complete, List.mem_singleton] at member
      rw [member, ← Binding.at?_map_some, ← Binding.eq_map_some unfinished.covered.full]
      exact bound
  | cons item rest induction =>
      obtain ⟨body, place⟩ := item
      by_cases done : (binding.at? place).isSome = true
      · rw [complete, if_pos done] at member
        exact induction (unfinished.skip done) member bound
      · rw [complete_cons body done] at member
        obtain ⟨chosen, _, found⟩ := List.mem_flatMap.mp member
        refine induction (unfinished.bind chosen) found ?_
        have different : place ≠ position := by
          rintro rfl
          simp [bound] at done
        rw [Binding.at?_set (unfinished.inside _ List.mem_cons_self), if_neg different, bound]

/-! ## No tuple is found twice -/

theorem nodup_choices (distinct : table.Distinct) (position : Nat) (body : NonterminalId) :
    (join.choices table binding position body).toList.Nodup := by
  simp only [choices]
  cases found : shortest? ((join.links.filterMap
      (demand? table binding position body)).map table.atBoundary) with
  | none => exact distinct.nonterminals body
  | some row =>
      obtain ⟨boundary, _, rfl⟩ := List.mem_map.mp (shortest?_mem found)
      exact distinct.boundaries boundary

theorem nodup_complete (distinct : table.Distinct) (unfinished : Open rest binding) :
    (join.complete table rest binding).Nodup := by
  induction rest generalizing binding with
  | nil => simp [complete]
  | cons item rest induction =>
      obtain ⟨body, place⟩ := item
      by_cases done : (binding.at? place).isSome = true
      · rw [complete, if_pos done]
        exact induction (unfinished.skip done)
      · rw [complete_cons body done]
        refine List.nodup_flatMap.mpr ⟨fun id _ => induction (unfinished.bind id), ?_⟩
        refine ((nodup_choices distinct place body).filter _).imp
          fun {first second} different => ?_
        intro ids fromFirst fromSecond
        have chosen : ∀ id, ids ∈ join.complete table rest (binding.set place (some id)) →
            ids[place]? = some id := by
          intro id found
          refine getElem?_of_mem_complete (unfinished.bind id) found ?_
          rw [Binding.at?_set (unfinished.inside _ List.mem_cons_self), if_pos rfl]
        have same := (chosen first fromFirst).symm.trans (chosen second fromSecond)
        exact different (Option.some.inj same)

section Combinations

variable {position : Nat} {id : DerivationId} {derivation : Derivation}

private theorem open_first (join : Join) (position : Nat) (id : DerivationId) :
    Open join.bodies.zipIdx
      ((List.replicate join.bodies.length none).set position (some id)) := by
  constructor
  · rw [List.length_set, List.length_replicate]
    exact zipIdx_covers join _
  · rw [List.length_set, List.length_replicate]
    exact fun item member => (List.getElem?_eq_some_iff.mp (zipIdx_places join item member)).1

private theorem mem_complete_of_mem_combinations
    (member : ids ∈ join.combinations table position id derivation) :
    ids ∈ join.complete table join.bodies.zipIdx
      ((List.replicate join.bodies.length none).set position (some id)) := by
  simp only [combinations] at member
  split at member
  · cases member
  · split at member
    · exact member
    · cases member

theorem nodup_combinations (distinct : table.Distinct) :
    (join.combinations table position id derivation).Nodup := by
  simp only [combinations]
  split
  · exact List.nodup_nil
  · split
    · exact nodup_complete distinct (open_first join position id)
    · exact List.nodup_nil

theorem getElem?_of_mem_combinations (inside : position < join.bodies.length)
    (member : ids ∈ join.combinations table position id derivation) :
    ids[position]? = some id := by
  refine getElem?_of_mem_complete (open_first join position id)
    (mem_complete_of_mem_combinations member) ?_
  rw [at?_single inside, if_pos rfl]

end Combinations

end Join

/-! ## The tuples of a search are those of a nested loop -/

section Fits

variable {table : DerivationTable} {rule : ConcatenationRule} {join : Join}
  {ids : List DerivationId} {bodies : List Derivation}

theorem DerivationTable.segment?_of_holds (holds : table.Holds ids bodies)
    (reference : SegmentRef) :
    table.segment? ids reference = reference.span? (Derivation.segmentsAt bodies) := by
  rw [← Binding.segment?_map_some holds]
  simp only [DerivationTable.segment?, Binding.segment?, Binding.at?_map_some]

private theorem exists_mapM {α β : Type} {items : List α} {function : α → Option β}
    (defined : ∀ item ∈ items, ∃ result, function item = some result) :
    ∃ results, items.mapM function = some results := by
  induction items with
  | nil => exact ⟨[], rfl⟩
  | cons item items induction =>
      obtain ⟨result, found⟩ := defined item List.mem_cons_self
      obtain ⟨results, all⟩ := induction fun other member =>
        defined other (List.mem_cons_of_mem _ member)
      exact ⟨result :: results, by simp [List.mapM_cons, found, all]⟩

namespace ConcatenationRule.Fits

private theorem exists_body (fits : rule.Fits table ids)
    (numbers : join.Numbers table.nonterminals rule) {position : Nat} {id : DerivationId}
    (found : ids[position]? = some id) :
    ∃ derivation, table.derivation? id = some derivation ∧
      join.bodies[position]? = some derivation.nonterminal := by
  have inside := (List.getElem?_eq_some_iff.mp found).1
  have named := List.getElem?_eq_getElem (fits.length ▸ inside :
    position < rule.bodies.length)
  obtain ⟨derivation, place, numbered⟩ := fits.bodies position id _ found named
  have sameBody := congrArg (fun list => list[position]?) numbers.bodies
  simp only [List.getElem?_map, named, Option.map_some, numbered] at sameBody
  obtain ⟨body, bodyFound, same⟩ := Option.map_eq_some_iff.mp sameBody.symm
  rw [bodyFound, Option.some.inj same]
  exact ⟨derivation, place, rfl⟩

private theorem exists_holds (fits : rule.Fits table ids)
    (numbers : join.Numbers table.nonterminals rule) : ∃ bodies, table.Holds ids bodies := by
  apply DerivationTable.exists_holds
  intro id member
  obtain ⟨position, found⟩ := List.mem_iff_getElem?.mp member
  obtain ⟨derivation, place, _⟩ := fits.exists_body numbers found
  exact ⟨derivation, place⟩

private theorem names (fits : rule.Fits table ids)
    (numbers : join.Numbers table.nonterminals rule) (holds : table.Holds ids bodies) :
    bodies.map Derivation.nonterminal = join.bodies := by
  apply List.ext_getElem?
  intro position
  rw [List.getElem?_map]
  cases found : bodies[position]? with
  | none =>
      have outside := List.getElem?_eq_none_iff.mp found
      rw [← holds.length_eq, fits.length, ← numbers.length_bodies] at outside
      exact (List.getElem?_eq_none_iff.mpr outside).symm
  | some body =>
      obtain ⟨id, idFound, place⟩ := holds.of_body found
      obtain ⟨derivation, samePlace, bodyFound⟩ := fits.exists_body numbers idFound
      rw [place] at samePlace
      rw [bodyFound, ← Option.some.inj samePlace]
      rfl

private theorem exists_chained {segments : Nat → List Span} (proper : rule.Proper)
    (named : ∀ reference ∈ rule.wiring.flatten, ∃ span, reference.span? segments = some span) :
    ∃ made, rule.wiring.mapM (SegmentRef.chainSpan? segments) = some made := by
  refine exists_mapM fun chain member => ?_
  have nonempty := proper.chain_ne_nil chain member
  have inWiring : ∀ reference ∈ chain, reference ∈ rule.wiring.flatten :=
    fun reference inChain => List.mem_flatten.mpr ⟨chain, member, inChain⟩
  obtain ⟨first, firstFound⟩ := named _ (inWiring _ (List.head_mem nonempty))
  obtain ⟨last, lastFound⟩ := named _ (inWiring _ (List.getLast_mem nonempty))
  refine ⟨⟨first.start, last.stop⟩, ?_⟩
  simp [SegmentRef.chainSpan?, List.head?_eq_some_head nonempty,
    List.getLast?_eq_some_getLast nonempty, firstFound, lastFound]

/-- Derivations that fit a concatenation are those of its bodies, and the wiring makes
segments of theirs. -/
theorem exists_connects (fits : rule.Fits table ids)
    (proper : rule.Proper) (numbers : join.Numbers table.nonterminals rule) :
    ∃ bodies segments, table.Holds ids bodies ∧
      bodies.map Derivation.nonterminal = join.bodies ∧
      join.Connects (Derivation.segmentsAt bodies) segments := by
  obtain ⟨bodies, holds⟩ := fits.exists_holds numbers
  have named : ∀ reference ∈ rule.wiring.flatten,
      ∃ span, reference.span? (Derivation.segmentsAt bodies) = some span := by
    intro reference member
    rw [← DerivationTable.segment?_of_holds holds]
    exact fits.segments reference member
  obtain ⟨segments, chained⟩ := exists_chained proper named
  rw [← numbers.wiring] at chained
  refine ⟨bodies, segments, holds, fits.names numbers holds, ?_, ?_, chained⟩
  · intro position inside
    rw [numbers.length_bodies] at inside
    rw [numbers.arityAt inside]
    refine ConcatenationRule.bodyArity_le fun reference member here => ?_
    obtain ⟨span, found⟩ := named reference member
    rw [SegmentRef.span?, here] at found
    exact (List.getElem?_eq_some_iff.mp found).1
  · intro link member left right leftFound rightFound
    rw [← DerivationTable.segment?_of_holds holds] at leftFound rightFound
    exact fits.links link (numbers.links ▸ member) left right leftFound rightFound

end ConcatenationRule.Fits

theorem Join.exists_segment_of_holds {nonterminals : Nonterminals} (proper : rule.Proper)
    (numbers : join.Numbers nonterminals rule) (holds : table.Holds ids bodies)
    (arities : ∀ position < join.bodies.length,
      join.arityAt position ≤ (Derivation.segmentsAt bodies position).length) :
    ∀ reference ∈ rule.wiring.flatten, ∃ span, table.segment? ids reference = some span := by
  intro reference member
  rw [DerivationTable.segment?_of_holds holds]
  refine rule.exists_span_of_arities proper (fun position inside => ?_) member
  rw [← numbers.arityAt inside]
  exact arities position (numbers.length_bodies.symm ▸ inside)

private theorem fits_of_holds (proper : rule.Proper)
    (numbers : join.Numbers table.nonterminals rule) (holds : table.Holds ids bodies)
    (names : bodies.map Derivation.nonterminal = join.bodies)
    (arities : ∀ position < join.bodies.length,
      join.arityAt position ≤ (Derivation.segmentsAt bodies position).length)
    (linked : ∀ link ∈ join.links, ∀ left right,
      link.1.span? (Derivation.segmentsAt bodies) = some left →
      link.2.span? (Derivation.segmentsAt bodies) = some right → left.stop = right.start) :
    rule.Fits table ids := by
  refine ⟨?_, ?_, ?_, ?_⟩
  · rw [holds.length_eq, ← numbers.length_bodies, ← names, List.length_map]
  · intro position id name found named
    obtain ⟨body, bodyFound, place⟩ := holds.of_id found
    refine ⟨body, place, ?_⟩
    have sameBody := congrArg (fun list => list[position]?) numbers.bodies
    simpa only [List.getElem?_map, named, ← names, bodyFound, Option.map_some,
      Option.some.injEq] using sameBody
  · exact Join.exists_segment_of_holds proper numbers holds arities
  · intro link member left right leftFound rightFound
    rw [DerivationTable.segment?_of_holds holds] at leftFound rightFound
    exact linked link (numbers.links.symm ▸ member) left right leftFound rightFound

theorem Join.mem_combinations_iff (coherent : table.Coherent) (proper : rule.Proper)
    (numbers : join.Numbers table.nonterminals rule) {position : Nat} {id : DerivationId}
    {derivation : Derivation} (place : table.derivation? id = some derivation)
    (body : join.bodies[position]? = some derivation.nonterminal) :
    ids ∈ join.combinations table position id derivation ↔
      ids[position]? = some id ∧ rule.Fits table ids := by
  constructor
  · intro member
    obtain ⟨bodies, holds, names, arities, linked⟩ :=
      combinations_sound coherent place body member
    exact ⟨getElem?_of_mem_combinations (List.getElem?_eq_some_iff.mp body).1 member,
      fits_of_holds proper numbers holds names arities linked⟩
  · rintro ⟨found, fits⟩
    obtain ⟨bodies, segments, holds, names, connects⟩ := fits.exists_connects proper numbers
    exact mem_combinations coherent holds (numbers.scoped proper) names connects found place

theorem Join.map_antecedents_assembled (coherent : table.Coherent) (proper : rule.Proper)
    (numbers : join.Numbers table.nonterminals rule) {position : Nat} {id : DerivationId}
    {derivation : Derivation} (place : table.derivation? id = some derivation)
    (body : join.bodies[position]? = some derivation.nonterminal) :
    ((join.combinations table position id derivation).filterMap
        (join.assemble? table)).map Candidate.antecedents =
      join.combinations table position id derivation := by
  have assembled : ∀ ids ∈ join.combinations table position id derivation,
      ∃ candidate, join.assemble? table ids = some candidate ∧ candidate.antecedents = ids := by
    intro ids member
    obtain ⟨_, fits⟩ := (mem_combinations_iff coherent proper numbers place body).mp member
    obtain ⟨bodies, segments, holds, _, connects⟩ := fits.exists_connects proper numbers
    rw [assemble?_eq holds, connects.chained]
    exact ⟨_, rfl, rfl⟩
  generalize join.combinations table position id derivation = tuples at assembled ⊢
  induction tuples with
  | nil => rfl
  | cons ids others induction =>
      obtain ⟨candidate, made, same⟩ := assembled ids List.mem_cons_self
      rw [List.filterMap_cons, made, List.map_cons, same,
        induction fun other member => assembled other (List.mem_cons_of_mem _ member)]

end Fits

/-! ## The candidates of a derivation -/

/-- The candidates are made of the tuples of a nested loop that have the derivation at the
place, each tuple once. -/
structure Candidate.Nested (table : DerivationTable) (id : DerivationId)
    (candidates : List Candidate) (place : ConcatenationRule × Nat) : Prop where
  nodup : (candidates.map antecedents).Nodup
  mem_iff : ∀ ids, ids ∈ candidates.map antecedents ↔
    ids[place.2]? = some id ∧ place.1.Fits table ids

private theorem nested_of_filedFor {table : DerivationTable} (coherent : table.Coherent)
    (distinct : table.Distinct) {id : DerivationId} {derivation : Derivation}
    (found : table.derivation? id = some derivation) {filed : Join × Nat}
    {place : ConcatenationRule × Nat}
    (filedFor : Program.FiledFor table.nonterminals derivation.nonterminal filed place) :
    Candidate.Nested table id ((filed.1.combinations table filed.2 id derivation).filterMap
      (filed.1.assemble? table)) place := by
  obtain ⟨join, position⟩ := filed
  obtain ⟨rule, same⟩ := place
  obtain ⟨proper, numbers, rfl, body⟩ := filedFor
  have made := Join.map_antecedents_assembled coherent proper numbers found body
  constructor
  · rw [made]
    exact Join.nodup_combinations distinct
  · intro ids
    rw [made]
    exact Join.mem_combinations_iff coherent proper numbers found body

/-- The candidates of a derivation come in blocks, one for each place of its nonterminal among
the bodies of the concatenations.  The block of a place makes the tuples of a nested loop. -/
theorem Candidate.ofJoins_eq_nested {grammar : Grammar} (inWords : grammar.InWords)
    {table : DerivationTable}
    (reachable : DerivationTable.Reachable (Program.inWords grammar).1 table)
    {id : DerivationId} {derivation : Derivation}
    (found : table.derivation? id = some derivation) :
    ∃ blocks, Candidate.ofJoins (Program.inWords grammar).2 table id derivation =
        blocks.flatten ∧
      List.Forall₂ (Candidate.Nested table id) blocks
        (Program.placesOf grammar.concatenate table.nonterminals derivation.nonterminal) := by
  rw [inWords.program_eq] at reachable ⊢
  have filed := Program.joins_ofGrammar grammar derivation.nonterminal
  rw [← reachable.nonterminals_eq] at filed
  refine ⟨_, List.flatMap_def, List.forall₂_map_left_iff.mpr (filed.imp fun _ _ filedFor => ?_)⟩
  exact nested_of_filedFor reachable.coherent reachable.distinct found filedFor

/-- Two pairs that cross. -/
def crossedRule : ConcatenationRule :=
  ⟨"S", ["P", "P"], [[⟨0, 0⟩, ⟨1, 0⟩, ⟨0, 1⟩, ⟨1, 1⟩]]⟩

def crossedPairs : Grammar where
  concatenate := [crossedRule]

/-- The pair at 0 crosses those at 1 and 3, and that at 4 crosses it.  The pair at 2 misses a
link. -/
def crossedTable : DerivationTable :=
  [⟨1, [⟨0, 1⟩, ⟨2, 3⟩]⟩, ⟨1, [⟨1, 2⟩, ⟨3, 4⟩]⟩, ⟨1, [⟨1, 0⟩, ⟨3, 4⟩]⟩,
    ⟨1, [⟨1, 2⟩, ⟨3, 5⟩]⟩, ⟨1, [⟨5, 0⟩, ⟨1, 2⟩]⟩].foldl
      (fun table derivation => (table.insert derivation).2.2)
      (.ofNonterminals (Program.inWords crossedPairs).1)

/-- The same body stands at both positions, and each has its block. -/
theorem Candidate.ofJoins_eq_nested_crossedPairs :
    crossedPairs.InWords ∧
      DerivationTable.Reachable (Program.inWords crossedPairs).1 crossedTable ∧
      crossedTable.derivation? 0 = some ⟨1, [⟨0, 1⟩, ⟨2, 3⟩]⟩ ∧
      (∀ ids : List DerivationId,
        ids ∈ [[0, 1], [0, 3]] ↔ ids[0]? = some 0 ∧ crossedRule.Fits crossedTable ids) ∧
      ∀ ids : List DerivationId,
        ids = [4, 0] ↔ ids[1]? = some 0 ∧ crossedRule.Fits crossedTable ids := by
  have inWords : crossedPairs.InWords := by decide +kernel
  have reachable : DerivationTable.Reachable (Program.inWords crossedPairs).1 crossedTable :=
    .insert _ (.insert _ (.insert _ (.insert _ (.insert _ .empty))))
  have found : crossedTable.derivation? 0 = some ⟨1, [⟨0, 1⟩, ⟨2, 3⟩]⟩ := by decide +kernel
  have tuples : (ofJoins (Program.inWords crossedPairs).2 crossedTable 0
      ⟨1, [⟨0, 1⟩, ⟨2, 3⟩]⟩).map antecedents = [[0, 1], [0, 3], [4, 0]] := by
    decide +kernel
  have places : Program.placesOf crossedPairs.concatenate crossedTable.nonterminals 1 =
      [(crossedRule, 0), (crossedRule, 1)] := by
    decide +kernel
  obtain ⟨blocks, made, nested⟩ := ofJoins_eq_nested inWords reachable found
  rw [places] at nested
  obtain ⟨first, _, atFirst, rest, rfl⟩ := List.forall₂_cons_right_iff.mp nested
  obtain ⟨second, _, atSecond, noMore, rfl⟩ := List.forall₂_cons_right_iff.mp rest
  cases List.forall₂_nil_right_iff.mp noMore
  have split : ∀ ids, ids ∈ [[0, 1], [0, 3], [4, 0]] ↔
      ids ∈ first.map antecedents ∨ ids ∈ second.map antecedents := by
    intro ids
    rw [← tuples, made]
    simp
  refine ⟨inWords, reachable, found, fun ids => ?_, fun ids => ?_⟩
  · rw [← atFirst.mem_iff ids]
    constructor
    · intro member
      refine ((split ids).mp (by grind)).resolve_right fun inSecond => ?_
      have here := ((atSecond.mem_iff ids).mp inSecond).1
      grind
    · intro inFirst
      have here := ((atFirst.mem_iff ids).mp inFirst).1
      have member := (split ids).mpr (.inl inFirst)
      grind
  · rw [← atSecond.mem_iff ids]
    constructor
    · rintro rfl
      refine ((split _).mp (by simp)).resolve_left fun inFirst => ?_
      cases ((atFirst.mem_iff _).mp inFirst).1
    · intro inSecond
      have here := ((atSecond.mem_iff ids).mp inSecond).1
      have member := (split ids).mpr (.inr inSecond)
      grind

/-- One derivation of `A`. -/
def lastSegmentTable : DerivationTable :=
  ((DerivationTable.ofNonterminals (Program.inWords lastSegment).1).insert ⟨1, [⟨0, 1⟩]⟩).2.2

/-- The join takes a derivation without the segment that it refers to. -/
theorem Candidate.not_nested_lastSegment :
    DerivationTable.Reachable (Program.inWords lastSegment).1 lastSegmentTable ∧
      lastSegmentTable.derivation? 0 = some ⟨1, [⟨0, 1⟩]⟩ ∧
      ¬ ∃ blocks, ofJoins (Program.inWords lastSegment).2 lastSegmentTable 0 ⟨1, [⟨0, 1⟩]⟩ =
          blocks.flatten ∧
        List.Forall₂ (Candidate.Nested lastSegmentTable 0) blocks
          (Program.placesOf lastSegment.concatenate lastSegmentTable.nonterminals 1) := by
  refine ⟨.insert _ .empty, by decide +kernel, ?_⟩
  rintro ⟨blocks, made, nested⟩
  have places : Program.placesOf lastSegment.concatenate lastSegmentTable.nonterminals 1 =
      [(lastSegmentRule, 0)] := by
    decide +kernel
  rw [places] at nested
  obtain ⟨block, _, only, noMore, rfl⟩ := List.forall₂_cons_right_iff.mp nested
  cases List.forall₂_nil_right_iff.mp noMore
  have tuples : (ofJoins (Program.inWords lastSegment).2 lastSegmentTable 0
      ⟨1, [⟨0, 1⟩]⟩).map antecedents = [[0]] := by
    decide +kernel
  rw [made, List.flatten_singleton] at tuples
  obtain ⟨_, fits⟩ := (only.mem_iff [0]).mp (tuples ▸ List.mem_singleton_self _)
  obtain ⟨span, found⟩ := fits.segments ⟨0, Text.wordBound - 1⟩ (by decide +kernel)
  have missing : lastSegmentTable.segment? [0] ⟨0, Text.wordBound - 1⟩ = none := by
    decide +kernel
  cases missing.symm.trans found

end GrammarReach
