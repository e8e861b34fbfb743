import GrammarReach.Proofs.Bracket.RearrangedBrackets

/-!
# Brackets and their spellings

The strict reduction knows a bracket when the canonical label of its partner was met before.
It is therefore the reduction to the brackets that are both opened and closed, in every order
of the edges, exactly for graphs that spell both labels of these brackets canonically.  A
bracket that has the canonical spelling for one of its two labels only is found in some orders
of the edges and missed in others.
-/

namespace GrammarReach

/-! ## The two labels of a bracket -/

/-- The first label is an opening or closing bracket, and the second one its partner. -/
inductive Opposes (family : BracketFamily) (id : Nat) : BracketLabel → BracketLabel → Prop where
  | opening : Opposes family id (.opening family id) (.closing family id)
  | closing : Opposes family id (.closing family id) (.opening family id)

namespace Opposes

variable {family : BracketFamily} {id : Nat} {reading partner : BracketLabel}

theorem symm (opposes : Opposes family id reading partner) :
    Opposes family id partner reading := by
  cases opposes with
  | opening => exact .closing
  | closing => exact .opening

theorem bracket (opposes : Opposes family id reading partner) :
    reading.bracket? = some (family, id) ∧ reading.partner? = some partner := by
  cases opposes with
  | opening => exact ⟨rfl, rfl⟩
  | closing => exact ⟨rfl, rfl⟩

theorem ne (opposes : Opposes family id reading partner) : partner ≠ reading := by
  cases opposes with
  | opening => simp
  | closing => simp

theorem read_text (opposes : Opposes family id reading partner)
    (below : id < Text.halfWordBound) : BracketLabel.read reading.text = reading := by
  cases opposes with
  | opening => exact BracketLabel.read_openLabel family below
  | closing => exact BracketLabel.read_closeLabel family below

theorem eq_or_eq (opposes : Opposes family id reading partner) {other : BracketLabel}
    (brackets : other.bracket? = some (family, id)) : other = reading ∨ other = partner := by
  cases other with
  | epsilon => cases brackets
  | normal => cases brackets
  | other label => cases brackets
  | opening owner number =>
      cases brackets
      cases opposes with
      | opening => exact .inl rfl
      | closing => exact .inr rfl
  | closing owner number =>
      cases brackets
      cases opposes with
      | opening => exact .inr rfl
      | closing => exact .inl rfl

end Opposes

namespace PartnerScan

variable {family : BracketFamily} {id : Nat} {reading partner : BracketLabel}

/-- A bracket is paired when a label reads as one of its two labels behind the written form
of the other one. -/
theorem paired_iff {word : List Label} :
    Paired word (family, id) ↔ ∃ reading partner, Opposes family id reading partner ∧
      ∃ label, BracketLabel.read label = reading ∧ [partner.text, label].Sublist word := by
  constructor
  · rintro ⟨label, partner, brackets, partners, inWord⟩
    rcases Opposes.opening.eq_or_eq brackets with same | same
    · rw [same] at partners
      cases partners
      exact ⟨_, _, .opening, label, same, inWord⟩
    · rw [same] at partners
      cases partners
      exact ⟨_, _, .closing, label, same, inWord⟩
  · rintro ⟨reading, partner, opposes, label, rfl, inWord⟩
    exact ⟨label, partner, opposes.bracket.1, opposes.bracket.2, inWord⟩

/-- A paired bracket occurs as an opening and as a closing bracket, one of them in its
canonical spelling. -/
theorem Paired.both {word : List Label} (paired : Paired word (family, id)) :
    ∃ reading partner, Opposes family id reading partner ∧
      (∃ label ∈ word, BracketLabel.read label = reading) ∧ partner.text ∈ word := by
  obtain ⟨reading, partner, opposes, label, read, inWord⟩ := paired_iff.mp paired
  exact ⟨reading, partner, opposes, ⟨label, inWord.subset (.tail _ (.head _)), read⟩,
    inWord.subset (.head _)⟩

/-- A bracket is missed when all labels with one of its readings come first, and none of them
has the canonical spelling. -/
theorem not_paired_of_first (opposes : Opposes family id reading partner)
    (below : id < Text.halfWordBound) {first rest : List Label}
    (before : ∀ label ∈ first, BracketLabel.read label = reading)
    (behind : ∀ label ∈ rest, BracketLabel.read label ≠ reading)
    (unspelled : reading.text ∉ first ++ rest) : ¬ Paired (first ++ rest) (family, id) := by
  intro paired
  obtain ⟨other, written, others, label, read, inWord⟩ := paired_iff.mp paired
  rcases opposes.eq_or_eq others.bracket.1 with rfl | rfl
  · obtain rfl : partner = written := by
      have same := opposes.bracket.2.symm.trans others.bracket.2
      exact Option.some.inj same
    obtain ⟨left, right, split, inFirst, inRest⟩ := List.sublist_append_iff.mp inWord
    have labelFirst : label ∉ right := fun member => behind label (inRest.subset member) read
    have writtenFirst : partner.text ∉ left := fun member =>
      opposes.ne ((opposes.symm.read_text below).symm.trans
        (before partner.text (inFirst.subset member)))
    cases left with
    | nil =>
        rw [List.nil_append] at split
        exact labelFirst (split ▸ .tail _ (.head _))
    | cons head left =>
        obtain rfl : partner.text = head := (List.cons.inj split).1
        exact writtenFirst (.head _)
  · obtain rfl : reading = written := by
      have same := opposes.symm.bracket.2.symm.trans others.bracket.2
      exact Option.some.inj same
    exact unspelled (inWord.subset (.head _))

theorem paired_of_first (opposes : Opposes family id reading partner) {first rest : List Label}
    (spelled : partner.text ∈ first) {label : Label} (member : label ∈ rest)
    (read : BracketLabel.read label = reading) : Paired (first ++ rest) (family, id) :=
  paired_iff.mpr ⟨reading, partner, opposes, label, read,
    (List.singleton_sublist.mpr spelled).append (List.singleton_sublist.mpr member)⟩

end PartnerScan

namespace Graph

/-! ## Brackets of a graph -/

section Brackets

variable {graph : Graph} {family : BracketFamily} {id : Nat} {reading partner : BracketLabel}

/-- An edge of the graph is read in the given way. -/
def HasReading (graph : Graph) (reading : BracketLabel) : Prop :=
  ∃ edge ∈ graph.edges, BracketLabel.read edge.label = reading

/-- An edge of the graph has the given label. -/
def HasLabel (graph : Graph) (label : Label) : Prop :=
  ∃ edge ∈ graph.edges, edge.label = label

/-- An edge of the graph opens the bracket and another one closes it. -/
def OpensAndCloses (graph : Graph) (family : BracketFamily) (id : Nat) : Prop :=
  graph.HasReading (.opening family id) ∧ graph.HasReading (.closing family id)

/-- The label is `normal` or a bracket with the given property. -/
def IsNormalOr (holds : BracketFamily → Nat → Prop) (label : Label) : Prop :=
  BracketLabel.read label = .normal ∨
    ∃ family id, (BracketLabel.read label).bracket? = some (family, id) ∧ holds family id

theorem OpensAndCloses.hasReading (both : graph.OpensAndCloses family id)
    (opposes : Opposes family id reading partner) : graph.HasReading reading := by
  cases opposes with
  | opening => exact both.1
  | closing => exact both.2

theorem OpensAndCloses.below (both : graph.OpensAndCloses family id) :
    id < Text.halfWordBound := by
  obtain ⟨⟨edge, _, read⟩, _⟩ := both
  have bracket : (BracketLabel.read edge.label).bracket? = some (family, id) := by
    rw [read]
    rfl
  exact BracketLabel.id_below_of_read bracket

theorem HasLabel.hasReading {label : Label} (has : graph.HasLabel label) :
    graph.HasReading (BracketLabel.read label) := by
  obtain ⟨edge, member, rfl⟩ := has
  exact ⟨edge, member, rfl⟩

private theorem mem_labelledEdges_of_read (opposes : Opposes family id reading partner)
    {edge : Edge} (member : edge ∈ graph.edges) (read : BracketLabel.read edge.label = reading) :
    edge ∈ graph.labelledEdges := by
  refine mem_labelledEdges.mpr ⟨member, ?_⟩
  by_contra epsilon
  have same : edge.label = Grammar.epsilon := by simpa [Edge.isEpsilon] using epsilon
  rw [same, BracketLabel.read_epsilon] at read
  cases opposes with
  | opening => cases read
  | closing => cases read

private theorem hasLabel_of_mem {label : Label} (member : label ∈ wordOf graph.labelledEdges) :
    graph.HasLabel label := by
  obtain ⟨edge, labelled, rfl⟩ := List.mem_map.mp member
  exact ⟨edge, (mem_labelledEdges.mp labelled).1, rfl⟩

private theorem mem_of_hasLabel (opposes : Opposes family id reading partner)
    (below : id < Text.halfWordBound) (has : graph.HasLabel reading.text) :
    reading.text ∈ wordOf graph.labelledEdges := by
  obtain ⟨edge, member, same⟩ := has
  have read : BracketLabel.read edge.label = reading := by rw [same, opposes.read_text below]
  exact List.mem_map.mpr ⟨edge, mem_labelledEdges_of_read opposes member read, same⟩

theorem opensAndCloses_of_mem (member : (family, id) ∈ graph.partneredBrackets) :
    graph.OpensAndCloses family id := by
  have paired := mem_partneredBrackets_iff.mp member
  have below : id < Text.halfWordBound := paired.bounded
  obtain ⟨reading, partner, opposes, ⟨label, inWord, read⟩, spelled⟩ := paired.both
  have first : graph.HasReading reading := read ▸ (hasLabel_of_mem inWord).hasReading
  have second := (hasLabel_of_mem spelled).hasReading
  rw [opposes.symm.read_text below] at second
  cases opposes with
  | opening => exact ⟨first, second⟩
  | closing => exact ⟨second, first⟩

theorem hasLabel_of_mem_partneredBrackets (member : (family, id) ∈ graph.partneredBrackets) :
    graph.HasLabel (family.openLabel id) ∨ graph.HasLabel (family.closeLabel id) := by
  obtain ⟨reading, partner, opposes, _, spelled⟩ := (mem_partneredBrackets_iff.mp member).both
  cases opposes with
  | opening => exact .inr (hasLabel_of_mem spelled)
  | closing => exact .inl (hasLabel_of_mem spelled)

theorem mem_partneredBrackets_of_hasLabel (below : id < Text.halfWordBound)
    (opened : graph.HasLabel (family.openLabel id))
    (closed : graph.HasLabel (family.closeLabel id)) : (family, id) ∈ graph.partneredBrackets :=
  mem_partneredBrackets below (mem_of_hasLabel .opening below opened)
    (mem_of_hasLabel .closing below closed)

theorem keepsLabel_iff {brackets : List (BracketFamily × Nat)} {label : Label} :
    keepsLabel brackets label = true ↔
      IsNormalOr (fun family id => (family, id) ∈ brackets) label := by
  unfold keepsLabel IsNormalOr
  cases BracketLabel.read label with
  | epsilon => simp [BracketLabel.bracket?]
  | normal => simp
  | other label => simp [BracketLabel.bracket?]
  | opening family id => simp [BracketLabel.bracket?]
  | closing family id => simp [BracketLabel.bracket?]

end Brackets

/-! ## Orders of the edges -/

section Orders

variable {graph : Graph} {family : BracketFamily} {id : Nat} {reading partner : BracketLabel}

theorem exists_rearranged (built : graph.Built) (test : Edge → Bool) :
    ∃ other, graph.Rearranges other ∧ wordOf other.labelledEdges =
      wordOf (graph.labelledEdges.filter test) ++
        wordOf (graph.labelledEdges.filter fun edge => !test edge) := by
  obtain ⟨edges, rfl⟩ := built.eq_ofEdges
  refine ⟨.ofEdges (edges.filter test ++ edges.filter fun edge => !test edge),
    rearranges_ofEdges (List.filter_append_perm test edges).symm, ?_⟩
  rw [labelledEdges_ofEdges, labelledEdges_ofEdges, List.filter_append, wordOf_append,
    List.filter_comm, List.filter_comm (fun edge => !test edge)]

theorem exists_order_without (built : graph.Built) (opposes : Opposes family id reading partner)
    (below : id < Text.halfWordBound) (unspelled : ¬ graph.HasLabel reading.text) :
    ∃ other, graph.Rearranges other ∧ (family, id) ∉ other.partneredBrackets := by
  obtain ⟨other, rearranges, word⟩ :=
    exists_rearranged built fun edge => BracketLabel.read edge.label = reading
  refine ⟨other, rearranges, fun member => ?_⟩
  have paired := mem_partneredBrackets_iff.mp member
  rw [word] at paired
  refine PartnerScan.not_paired_of_first opposes below ?_ ?_ ?_ paired
  · intro label member
    obtain ⟨edge, kept, rfl⟩ := List.mem_map.mp member
    simpa using (List.mem_filter.mp kept).2
  · intro label member
    obtain ⟨edge, kept, rfl⟩ := List.mem_map.mp member
    simpa using (List.mem_filter.mp kept).2
  · intro member
    refine unspelled (hasLabel_of_mem ?_)
    rw [← wordOf_append] at member
    exact wordOf_subset (List.filter_append_perm _ _).subset member

theorem exists_order_with (built : graph.Built) (opposes : Opposes family id reading partner)
    (below : id < Text.halfWordBound) (spelled : graph.HasLabel partner.text)
    (has : graph.HasReading reading) :
    ∃ other, graph.Rearranges other ∧ (family, id) ∈ other.partneredBrackets := by
  obtain ⟨other, rearranges, word⟩ :=
    exists_rearranged built fun edge => edge.label = partner.text
  refine ⟨other, rearranges, mem_partneredBrackets_iff.mpr ?_⟩
  obtain ⟨edge, member, read⟩ := has
  have labelled := mem_labelledEdges_of_read opposes member read
  have different : edge.label ≠ partner.text := fun same => opposes.ne <| by
    rw [← read, same, opposes.symm.read_text below]
  obtain ⟨first, inWord, same⟩ := List.mem_map.mp (mem_of_hasLabel opposes.symm below spelled)
  rw [word]
  refine PartnerScan.paired_of_first opposes (List.mem_map.mpr ⟨first, ?_, same⟩)
    (List.mem_map.mpr ⟨edge, ?_, rfl⟩) read
  · exact List.mem_filter.mpr ⟨inWord, by simpa using same⟩
  · exact List.mem_filter.mpr ⟨labelled, by simpa using different⟩

end Orders

namespace Rearranges

variable {graph other : Graph} {family : BracketFamily} {id : Nat}

theorem hasLabel (rearranges : graph.Rearranges other) {label : Label} :
    graph.HasLabel label ↔ other.HasLabel label := by
  simp only [HasLabel, rearranges.mem_edges]

theorem opensAndCloses (rearranges : graph.Rearranges other) :
    graph.OpensAndCloses family id ↔ other.OpensAndCloses family id := by
  simp only [OpensAndCloses, HasReading, rearranges.mem_edges]

end Rearranges

/-! ## The strict reduction -/

open Classical in
/-- The reduction keeps the normal edges and the brackets that are opened and closed, and its
ids are those of these brackets. -/
structure KeepsClosedBrackets (graph : Graph) : Prop where
  kept : graph.matchedBrackets.graph = .ofEdges (graph.edges.toList.filter fun edge =>
    IsNormalOr graph.OpensAndCloses edge.label)
  ids : ∀ family id, id ∈ graph.matchedBrackets.ids.ofFamily family ↔
    graph.OpensAndCloses family id

/-- The reduction keeps the same edges and knows the same ids in every order of the edges. -/
def IgnoresOrder (graph : Graph) : Prop :=
  ∀ other, graph.Rearranges other →
    graph.matchedBrackets.graph.Rearranges other.matchedBrackets.graph ∧
    ∀ family id, id ∈ graph.matchedBrackets.ids.ofFamily family ↔
      id ∈ other.matchedBrackets.ids.ofFamily family

theorem mem_ids_matchedBrackets {graph : Graph} {family : BracketFamily} {id : Nat} :
    id ∈ graph.matchedBrackets.ids.ofFamily family ↔ (family, id) ∈ graph.partneredBrackets :=
  BracketIds.mem_ofBrackets

open Classical in
private theorem matchedBrackets_eq (graph : Graph) : graph.matchedBrackets.graph =
    .ofEdges (graph.edges.toList.filter fun edge =>
      IsNormalOr (fun family id => (family, id) ∈ graph.partneredBrackets) edge.label) := by
  unfold matchedBrackets
  refine congrArg ofEdges (List.filter_congr fun edge _ => ?_)
  rw [Bool.eq_iff_iff, keepsLabel_iff, decide_eq_true_eq]

section Reduction

variable {graph : Graph} {family : BracketFamily} {id : Nat} {reading partner : BracketLabel}

theorem keepsClosedBrackets_of_partners (found : ∀ family id, graph.OpensAndCloses family id →
    (family, id) ∈ graph.partneredBrackets) : graph.KeepsClosedBrackets := by
  have same : (fun family id => (family, id) ∈ graph.partneredBrackets) =
      graph.OpensAndCloses := by
    funext family id
    exact propext ⟨opensAndCloses_of_mem, found family id⟩
  refine ⟨same ▸ matchedBrackets_eq graph, fun family id => ?_⟩
  rw [mem_ids_matchedBrackets]
  exact ⟨opensAndCloses_of_mem, found family id⟩

private theorem hasLabel_of_every_order (built : graph.Built)
    (opposes : Opposes family id reading partner) (below : id < Text.halfWordBound)
    (found : ∀ other, graph.Rearranges other → (family, id) ∈ other.partneredBrackets) :
    graph.HasLabel reading.text := by
  by_contra unspelled
  obtain ⟨other, rearranges, missed⟩ := exists_order_without built opposes below unspelled
  exact missed (found other rearranges)

private theorem IgnoresOrder.hasLabel (ignores : graph.IgnoresOrder) (built : graph.Built)
    (opposes : Opposes family id reading partner) (both : graph.OpensAndCloses family id)
    (spelled : graph.HasLabel partner.text) : graph.HasLabel reading.text := by
  have same : ∀ other, graph.Rearranges other →
      ((family, id) ∈ graph.partneredBrackets ↔ (family, id) ∈ other.partneredBrackets) := by
    intro other rearranges
    rw [← mem_ids_matchedBrackets, ← mem_ids_matchedBrackets]
    exact (ignores other rearranges).2 family id
  obtain ⟨other, rearranges, found⟩ :=
    exists_order_with built opposes both.below spelled (both.hasReading opposes)
  have known := (same other rearranges).mpr found
  exact hasLabel_of_every_order built opposes both.below fun third rearranged =>
    (same third rearranged).mp known

private theorem mem_partneredBrackets_of_even (even : ∀ family id, graph.OpensAndCloses family id →
      (graph.HasLabel (family.openLabel id) ↔ graph.HasLabel (family.closeLabel id))) :
    (family, id) ∈ graph.partneredBrackets ↔
      graph.OpensAndCloses family id ∧ graph.HasLabel (family.openLabel id) := by
  constructor
  · intro member
    have both := opensAndCloses_of_mem member
    exact ⟨both, (hasLabel_of_mem_partneredBrackets member).elim (fun opened => opened)
      (even family id both).mpr⟩
  · rintro ⟨both, opened⟩
    exact mem_partneredBrackets_of_hasLabel both.below opened ((even family id both).mp opened)

private theorem keepsClosedBrackets_iff (built : graph.Built) :
    (∀ other, graph.Rearranges other → other.KeepsClosedBrackets) ↔
      ∀ family id, graph.OpensAndCloses family id →
        graph.HasLabel (family.openLabel id) ∧ graph.HasLabel (family.closeLabel id) := by
  constructor
  · intro always family id both
    have found : ∀ other, graph.Rearranges other → (family, id) ∈ other.partneredBrackets :=
      fun other rearranges => mem_ids_matchedBrackets.mp
        (((always other rearranges).ids family id).mpr (rearranges.opensAndCloses.mp both))
    exact ⟨hasLabel_of_every_order built .opening both.below found,
      hasLabel_of_every_order built .closing both.below found⟩
  · intro spelled other rearranges
    refine keepsClosedBrackets_of_partners fun family id both => ?_
    obtain ⟨opened, closed⟩ := spelled family id (rearranges.opensAndCloses.mpr both)
    exact mem_partneredBrackets_of_hasLabel both.below (rearranges.hasLabel.mp opened)
      (rearranges.hasLabel.mp closed)

private theorem ignoresOrder_of_even (even : ∀ family id, graph.OpensAndCloses family id →
      (graph.HasLabel (family.openLabel id) ↔ graph.HasLabel (family.closeLabel id))) :
    graph.IgnoresOrder := by
  intro other rearranges
  have otherEven : ∀ family id, other.OpensAndCloses family id →
      (other.HasLabel (family.openLabel id) ↔ other.HasLabel (family.closeLabel id)) := by
    intro family id both
    rw [← rearranges.hasLabel, ← rearranges.hasLabel]
    exact even family id (rearranges.opensAndCloses.mpr both)
  have same : ∀ family id, (family, id) ∈ graph.partneredBrackets ↔
      (family, id) ∈ other.partneredBrackets := by
    intro family id
    rw [mem_partneredBrackets_of_even even, mem_partneredBrackets_of_even otherEven,
      rearranges.opensAndCloses, rearranges.hasLabel]
  refine ⟨rearranges.matchedBrackets_of_partners fun bracket => same bracket.1 bracket.2, ?_⟩
  intro family id
  rw [mem_ids_matchedBrackets, mem_ids_matchedBrackets, same]

end Reduction

open Classical in
/-- Each id that the reduction knows is listed once and belongs to a bracket that is opened and
closed.  It knows all such brackets, and keeps exactly their edges and the normal ones, in every
order of the edges if and only if the graph has both canonical labels of these brackets.  Which
edges and ids it keeps is the same for every order if and only if the graph has both of the
canonical labels or none. -/
theorem matchedBrackets_exact {graph : Graph} (built : graph.Built) :
    (∀ family, (graph.matchedBrackets.ids.ofFamily family).Nodup) ∧
    (∀ family id, id ∈ graph.matchedBrackets.ids.ofFamily family →
      graph.OpensAndCloses family id) ∧
    (graph.matchedBrackets.graph = .ofEdges (graph.edges.toList.filter fun edge =>
      IsNormalOr (fun family id => id ∈ graph.matchedBrackets.ids.ofFamily family) edge.label)) ∧
    ((∀ other, graph.Rearranges other → other.KeepsClosedBrackets) ↔
      ∀ family id, graph.OpensAndCloses family id →
        graph.HasLabel (family.openLabel id) ∧ graph.HasLabel (family.closeLabel id)) ∧
    (graph.IgnoresOrder ↔ ∀ family id, graph.OpensAndCloses family id →
      (graph.HasLabel (family.openLabel id) ↔ graph.HasLabel (family.closeLabel id))) := by
  refine ⟨distinct_matchedBrackets graph,
    fun family id known => opensAndCloses_of_mem (mem_ids_matchedBrackets.mp known), ?_,
    keepsClosedBrackets_iff built, ?_⟩
  · simp only [mem_ids_matchedBrackets]
    exact matchedBrackets_eq graph
  · refine ⟨fun ignores family id both => ?_, ignoresOrder_of_even⟩
    exact ⟨ignores.hasLabel built .closing both, ignores.hasLabel built .opening both⟩

/-- A pair of parentheses, a bracket that is not closed, and other labels. -/
def matchedAmongOthers : Graph :=
  .ofEdges [⟨0, 1, "op--1"⟩, ⟨1, 2, "normal"⟩, ⟨2, 3, "cp--1"⟩, ⟨2, 3, "cp--1"⟩, ⟨3, 4, "ob--7"⟩,
    ⟨4, 5, "weird"⟩]

theorem matchedBrackets_exact_matchedAmongOthers :
    matchedAmongOthers.Built ∧ matchedAmongOthers.OpensAndCloses .parenthesis 1 ∧
      (∀ other, matchedAmongOthers.Rearranges other → other.KeepsClosedBrackets) := by
  have built : matchedAmongOthers.Built := built_ofEdges _
  obtain ⟨_, sound, _, exact, _⟩ := matchedBrackets_exact built
  have readings : matchedAmongOthers.edges.toList.map (fun edge => BracketLabel.read edge.label) =
      [.opening .parenthesis 1, .epsilon, .epsilon, .normal, .epsilon, .closing .parenthesis 1,
        .epsilon, .closing .parenthesis 1, .opening .bracket 7, .epsilon, .other "weird",
        .epsilon] := by
    decide +kernel
  refine ⟨built, sound .parenthesis 1 (by decide +kernel), exact.mpr ?_⟩
  rintro family id ⟨_, edge, member, read⟩
  have listed : BracketLabel.closing family id ∈
      matchedAmongOthers.edges.toList.map fun edge => BracketLabel.read edge.label :=
    List.mem_map.mpr ⟨edge, Array.mem_toList_iff.mpr member, read⟩
  rw [readings] at listed
  obtain ⟨rfl, rfl⟩ : family = .parenthesis ∧ id = 1 := by simpa using listed
  exact ⟨⟨⟨0, 1, "op--1"⟩, by decide +kernel, by decide +kernel⟩,
    ⟨⟨2, 3, "cp--1"⟩, by decide +kernel, by decide +kernel⟩⟩

/-- A pair of parentheses whose opening label is padded with a zero. -/
def paddedPair : Graph :=
  .ofEdges [⟨0, 1, "op--01"⟩, ⟨1, 2, "cp--1"⟩]

/-- The padded label comes before its partner and the pair is dropped; in the other order it is
kept. -/
theorem dropped_paddedPair :
    paddedPair.OpensAndCloses .parenthesis 1 ∧ paddedPair.matchedBrackets.graph.edges = #[] ∧
      ¬ paddedPair.KeepsClosedBrackets ∧ ¬ paddedPair.IgnoresOrder := by
  have both : paddedPair.OpensAndCloses .parenthesis 1 :=
    ⟨⟨⟨0, 1, "op--01"⟩, by decide +kernel, by decide +kernel⟩,
      ⟨⟨1, 2, "cp--1"⟩, by decide +kernel, by decide +kernel⟩⟩
  have missed : 1 ∉ paddedPair.matchedBrackets.ids.ofFamily .parenthesis := by decide +kernel
  refine ⟨both, by decide +kernel, fun keeps => missed ((keeps.ids .parenthesis 1).mpr both), ?_⟩
  intro ignores
  have swapped : paddedPair.Rearranges (.ofEdges [⟨1, 2, "cp--1"⟩, ⟨0, 1, "op--01"⟩]) :=
    rearranges_ofEdges (.swap _ _ _)
  exact missed (((ignores _ swapped).2 .parenthesis 1).mpr (by decide +kernel))

end Graph

end GrammarReach
