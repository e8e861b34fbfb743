import GrammarReach.Bracket.Matching
import GrammarReach.Proofs.Bracket.BalancedWalks
import GrammarReach.Proofs.Graph.Sizes

/-!
# The brackets of a graph

Both reductions of a graph keep every balanced walk and know the ids of all its
brackets.  What they keep are labelled edges of the graph.
-/

namespace GrammarReach

namespace BracketIds

theorem mem_ofFamily_push {ids : BracketIds} {owner family : BracketFamily} {id other : Nat} :
    other ∈ (ids.push owner id).ofFamily family ↔
      other ∈ ids.ofFamily family ∨ (family = owner ∧ other = id) := by
  cases owner <;> cases family <;> simp [push, ofFamily]

private theorem mem_ofFamily_foldl {brackets : List (BracketFamily × Nat)} {ids : BracketIds}
    {family : BracketFamily} {id : Nat} :
    id ∈ (brackets.foldl (fun ids bracket => ids.push bracket.1 bracket.2) ids).ofFamily family ↔
      id ∈ ids.ofFamily family ∨ (family, id) ∈ brackets := by
  induction brackets generalizing ids with
  | nil => simp
  | cons bracket brackets induction =>
      obtain ⟨owner, other⟩ := bracket
      rw [List.foldl_cons, induction, mem_ofFamily_push, List.mem_cons, Prod.mk.injEq, or_assoc]

theorem mem_ofBrackets {brackets : List (BracketFamily × Nat)} {family : BracketFamily}
    {id : Nat} : id ∈ (ofBrackets brackets).ofFamily family ↔ (family, id) ∈ brackets := by
  apply mem_ofFamily_foldl.trans
  cases family <;> simp [ofFamily]

theorem nodup_ofBrackets {brackets : List (BracketFamily × Nat)} (distinct : brackets.Nodup)
    (family : BracketFamily) : ((ofBrackets brackets).ofFamily family).Nodup := by
  have general : ∀ {brackets : List (BracketFamily × Nat)} {ids : BracketIds},
      brackets.Nodup → (ids.ofFamily family).Nodup →
      (∀ bracket ∈ brackets, bracket.1 = family → bracket.2 ∉ ids.ofFamily family) →
      ((brackets.foldl (fun ids bracket => ids.push bracket.1 bracket.2) ids).ofFamily
        family).Nodup := by
    intro brackets
    induction brackets with
    | nil => exact fun _ known _ => known
    | cons bracket brackets induction =>
        intro ids distinct known apart
        obtain ⟨fresh, others⟩ := List.nodup_cons.mp distinct
        obtain ⟨first, rest⟩ := List.forall_mem_cons.mp apart
        refine induction others ?_ fun other member same known => ?_
        · by_cases same : bracket.1 = family
          · have pushed : (ids.push bracket.1 bracket.2).ofFamily family =
                ids.ofFamily family ++ [bracket.2] := by
              subst same
              cases bracket.1 <;> rfl
            rw [pushed, ← List.concat_eq_append]
            exact known.concat (first same)
          · have kept : (ids.push bracket.1 bracket.2).ofFamily family =
                ids.ofFamily family := by
              cases owner : bracket.1 <;> cases family <;> simp_all [push, ofFamily]
            rwa [kept]
        · rcases mem_ofFamily_push.mp known with old | ⟨owner, id⟩
          · exact rest other member same old
          · exact fresh ((Prod.ext (same.trans owner) id : other = bracket) ▸ member)
  refine general distinct ?_ fun bracket _ _ => ?_
  · cases family <;> exact List.nodup_nil
  · cases family <;> exact List.not_mem_nil

end BracketIds

namespace PartnerScan

theorem nodup_record {found : List (BracketFamily × Nat)} (distinct : found.Nodup)
    (bracket : BracketFamily × Nat) : (record found bracket).Nodup := by
  unfold record
  split
  · exact distinct
  · rename_i unknown
    rw [← List.concat_eq_append]
    exact distinct.concat (by simpa using unknown)

theorem mem_record {found : List (BracketFamily × Nat)} {bracket other : BracketFamily × Nat} :
    other ∈ record found bracket ↔ other ∈ found ∨ other = bracket := by
  unfold record
  split
  · rename_i known
    constructor
    · exact Or.inl
    · rintro (old | rfl)
      · exact old
      · simpa using known
  · simp

theorem nodup_foldl_record {found brackets : List (BracketFamily × Nat)}
    (distinct : found.Nodup) : (brackets.foldl record found).Nodup := by
  induction brackets generalizing found with
  | nil => exact distinct
  | cons bracket brackets induction => exact induction (nodup_record distinct bracket)

theorem mem_foldl_record {found brackets : List (BracketFamily × Nat)}
    {other : BracketFamily × Nat} :
    other ∈ brackets.foldl record found ↔ other ∈ found ∨ other ∈ brackets := by
  induction brackets generalizing found with
  | nil => simp
  | cons bracket brackets induction =>
      rw [List.foldl_cons, induction, mem_record, List.mem_cons, or_assoc]

/-- A label of the bracket occurs behind the label of its partner. -/
def Paired (word : List Label) (bracket : BracketFamily × Nat) : Prop :=
  ∃ label partner, (BracketLabel.read label).bracket? = some bracket ∧
    (BracketLabel.read label).partner? = some partner ∧ [partner.text, label].Sublist word

theorem Paired.mono {word other : List Label} {bracket : BracketFamily × Nat}
    (paired : Paired word bracket) (sub : word.Sublist other) : Paired other bracket := by
  obtain ⟨label, partner, brackets, partners, inWord⟩ := paired
  exact ⟨label, partner, brackets, partners, inWord.trans sub⟩

private theorem paired_concat {word : List Label} {label : Label}
    {bracket : BracketFamily × Nat} : Paired (word ++ [label]) bracket ↔ Paired word bracket ∨
      ∃ partner, (BracketLabel.read label).bracket? = some bracket ∧
        (BracketLabel.read label).partner? = some partner ∧ partner.text ∈ word := by
  constructor
  · rintro ⟨last, partner, brackets, partners, inWord⟩
    rcases List.sublist_append_iff.mp inWord with ⟨before, behind, split, first, second⟩
    rcases List.sublist_singleton.mp second with rfl | rfl
    · rw [List.append_nil] at split
      exact Or.inl ⟨last, partner, brackets, partners, split ▸ first⟩
    · rw [show [partner.text, last] = [partner.text] ++ [last] from rfl] at split
      obtain ⟨rfl, same⟩ := List.append_inj' split rfl
      cases same
      exact Or.inr ⟨partner, brackets, partners, List.singleton_sublist.mp first⟩
  · rintro (paired | ⟨partner, brackets, partners, member⟩)
    · exact paired.mono (List.sublist_append_left word [label])
    · exact ⟨label, partner, brackets, partners,
        (List.singleton_sublist.mpr member).append (List.Sublist.refl [label])⟩

theorem text_of_partner {reading partner : BracketLabel}
    {bracket : BracketFamily × Nat} (partners : reading.partner? = some partner)
    (brackets : reading.bracket? = some bracket) :
    partner.text = bracket.1.openLabel bracket.2 ∨
      partner.text = bracket.1.closeLabel bracket.2 := by
  cases reading with
  | epsilon => cases partners
  | normal => cases partners
  | other label => cases partners
  | opening family id =>
      cases partners
      cases brackets
      exact Or.inr rfl
  | closing family id =>
      cases partners
      cases brackets
      exact Or.inl rfl

theorem Paired.bounded {word : List Label} {bracket : BracketFamily × Nat}
    (paired : Paired word bracket) : bracket.2 < Text.halfWordBound := by
  obtain ⟨label, partner, brackets, _⟩ := paired
  exact BracketLabel.id_below_of_read brackets

theorem Paired.occurs {word : List Label} {bracket : BracketFamily × Nat}
    (paired : Paired word bracket) :
    bracket.1.openLabel bracket.2 ∈ word ∨ bracket.1.closeLabel bracket.2 ∈ word := by
  obtain ⟨label, partner, brackets, partners, inWord⟩ := paired
  have member : partner.text ∈ word := inWord.subset (.head _)
  rcases text_of_partner partners brackets with same | same
  · exact Or.inl (same ▸ member)
  · exact Or.inr (same ▸ member)

theorem paired_of_mem {word : List Label} {family : BracketFamily} {id : Nat}
    (below : id < Text.halfWordBound) (opened : family.openLabel id ∈ word)
    (closed : family.closeLabel id ∈ word) : Paired word (family, id) := by
  have openPartner : (BracketLabel.read (family.openLabel id)).partner? =
      some (.closing family id) := by simp [below, BracketLabel.partner?]
  have openBracket : (BracketLabel.read (family.openLabel id)).bracket? =
      some (family, id) := by simp [below, BracketLabel.bracket?]
  have closePartner : (BracketLabel.read (family.closeLabel id)).partner? =
      some (.opening family id) := by simp [below, BracketLabel.partner?]
  have closeBracket : (BracketLabel.read (family.closeLabel id)).bracket? =
      some (family, id) := by simp [below, BracketLabel.bracket?]
  obtain ⟨before, behind, rfl⟩ := List.append_of_mem opened
  rcases List.mem_append.mp closed with early | late
  · exact ⟨_, _, openBracket, openPartner, (List.singleton_sublist.mpr early).append
      (List.singleton_sublist.mpr (.head _))⟩
  · have after : family.closeLabel id ∈ behind := by
      refine (List.mem_cons.mp late).resolve_left fun same => ?_
      simpa [below] using congrArg BracketLabel.read same
    exact ⟨_, _, closeBracket, closePartner,
      ((List.singleton_sublist.mpr after).cons_cons _).trans (List.sublist_append_right before _)⟩

/-- What a scan has found after some labels: the labels themselves and each paired bracket
once. -/
structure Scanned (word : List Label) (scan : PartnerScan) : Prop where
  seen : ∀ label, label ∈ scan.seen ↔ label ∈ word
  distinct : scan.found.Nodup
  found : ∀ bracket, bracket ∈ scan.found ↔ Paired word bracket

theorem scanned_empty : Scanned [] {} :=
  ⟨by simp, by simp, by simp [Paired]⟩

private theorem mem_found_look {scan : PartnerScan} {label : Label}
    {bracket : BracketFamily × Nat} :
    bracket ∈ (scan.look label).found ↔ bracket ∈ scan.found ∨
      ∃ partner, (BracketLabel.read label).bracket? = some bracket ∧
        (BracketLabel.read label).partner? = some partner ∧ partner.text ∈ scan.seen := by
  unfold look
  simp only
  cases partners : (BracketLabel.read label).partner? with
  | none => simp
  | some partner =>
      cases brackets : (BracketLabel.read label).bracket? with
      | none => simp
      | some other =>
          by_cases seen : partner.text ∈ scan.seen
          · simp [seen, mem_record, @eq_comm _ bracket other]
          · simp [seen]

private theorem nodup_found_look {scan : PartnerScan} (distinct : scan.found.Nodup)
    (label : Label) : (scan.look label).found.Nodup := by
  unfold look
  simp only
  split
  · split
    · exact nodup_record distinct _
    · exact distinct
  · exact distinct

theorem Scanned.look {word : List Label} {scan : PartnerScan} (scanned : Scanned word scan)
    (label : Label) : Scanned (word ++ [label]) (scan.look label) where
  seen other := by
    change other ∈ scan.seen.insert label ↔ _
    rw [Std.TreeSet.mem_insert, scanned.seen, List.mem_append, List.mem_singleton,
      Std.LawfulEqOrd.compare_eq_iff_eq, or_comm, eq_comm]
  distinct := nodup_found_look scanned.distinct label
  found bracket := by
    rw [mem_found_look, paired_concat, scanned.found]
    simp only [scanned.seen]

theorem scanned_foldl (edges : List Edge) :
    Scanned (wordOf edges) (edges.foldl (fun scan edge => scan.look edge.label) {}) := by
  have general : ∀ {word : List Label} {scan : PartnerScan}, Scanned word scan →
      Scanned (word ++ wordOf edges)
        (edges.foldl (fun scan edge => scan.look edge.label) scan) := by
    induction edges with
    | nil => intro word scan scanned; simpa using scanned
    | cons edge edges induction =>
        intro word scan scanned
        simpa using induction (scanned.look edge.label)
  exact general scanned_empty

end PartnerScan

/-- A bracket component as it comes from a reduction: a graph without epsilon edges
besides loops, small ids, and the ids of all brackets that occur with their
partner. -/
structure BracketComponent.Proper (component : BracketComponent) : Prop where
  built : component.graph.Built
  loops : component.graph.LoopsOnly
  bounded : component.ids.Bounded
  partners : ∀ (family : BracketFamily) (id : Nat), id < Text.halfWordBound →
    family.openLabel id ∈ wordOf component.graph.labelledEdges →
    family.closeLabel id ∈ wordOf component.graph.labelledEdges →
    id ∈ component.ids.ofFamily family

/-- A component that knows each bracket of its graph once, and no other. -/
structure BracketComponent.Exact (component : BracketComponent) : Prop
    extends component.Proper where
  distinct : ∀ family : BracketFamily, (component.ids.ofFamily family).Nodup
  covers : ∀ edge ∈ component.graph.labelledEdges, CanonicalLabel edge.label →
    component.ids.Covers edge.label
  occurs : ∀ family : BracketFamily, ∀ id ∈ component.ids.ofFamily family,
    family.openLabel id ∈ wordOf component.graph.labelledEdges ∨
      family.closeLabel id ∈ wordOf component.graph.labelledEdges

/-- The labels of a word in which both families match are known to the component, if they
occur in its graph. -/
theorem BracketComponent.Proper.covers_of_matched {component : BracketComponent}
    (proper : component.Proper) {word : List Label}
    (canonical : ∀ label ∈ word, CanonicalLabel label)
    (matched : ∀ family : BracketFamily, family.Matched word)
    (occurs : ∀ label ∈ word, label ∈ wordOf component.graph.labelledEdges) :
    ∀ label ∈ word, component.ids.Covers label := by
  intro label member
  cases canonical label member with
  | normal => exact Or.inl rfl
  | @opening family id below =>
      obtain ⟨opened, closed⟩ := (matched family).partners below (Or.inl member)
      exact Or.inr ⟨family, id,
        proper.partners family id below (occurs _ opened) (occurs _ closed), Or.inl rfl⟩
  | @closing family id below =>
      obtain ⟨opened, closed⟩ := (matched family).partners below (Or.inr member)
      exact Or.inr ⟨family, id,
        proper.partners family id below (occurs _ opened) (occurs _ closed), Or.inr rfl⟩

theorem BracketComponent.Proper.covered {component : BracketComponent}
    (proper : component.Proper) {analysis : AnalysisFamily} {span : Span} {path : List Edge}
    (walk : BalancedWalk analysis component.graph span path) :
    ∀ label ∈ wordOf path, component.ids.Covers label :=
  proper.covers_of_matched walk.canonical walk.matched fun _ => wordOf_subset walk.inside

theorem BracketComponent.Proper.onGraph {component : BracketComponent} (proper : component.Proper)
    {graph : Graph} (built : graph.Built) (loops : graph.LoopsOnly)
    (labels : ∀ label ∈ wordOf graph.labelledEdges,
      label ∈ wordOf component.graph.labelledEdges) :
    (⟨component.ids, graph⟩ : BracketComponent).Proper :=
  ⟨built, loops, proper.bounded, fun family id below opened closed =>
    proper.partners family id below (labels _ opened) (labels _ closed)⟩

namespace Graph

/-! ## The strict reduction -/

private theorem scanned_partneredBrackets (graph : Graph) :
    PartnerScan.Scanned (wordOf graph.edges.toList)
      (graph.edges.foldl (fun scan edge => scan.look edge.label) {}) := by
  rw [← Array.foldl_toList]
  exact PartnerScan.scanned_foldl graph.edges.toList

/-- Only the labels besides epsilon decide which brackets have a partner. -/
theorem mem_partneredBrackets_iff {graph : Graph} {bracket : BracketFamily × Nat} :
    bracket ∈ graph.partneredBrackets ↔
      PartnerScan.Paired (wordOf graph.labelledEdges) bracket := by
  refine ((scanned_partneredBrackets graph).found bracket).trans ⟨?_, fun paired => ?_⟩
  · rintro ⟨label, partner, brackets, partners, inWord⟩
    have labelled : label ≠ Grammar.epsilon := by
      rintro rfl
      simp [BracketLabel.bracket?] at brackets
    have partnerLabelled : partner.text ≠ Grammar.epsilon := by
      have below := BracketLabel.id_below_of_read brackets
      rcases PartnerScan.text_of_partner partners brackets with same | same
      · exact same ▸ (CanonicalLabel.opening bracket.1 below).ne_epsilon
      · exact same ▸ (CanonicalLabel.closing bracket.1 below).ne_epsilon
    refine ⟨label, partner, brackets, partners, ?_⟩
    have kept := inWord.filter (· != Grammar.epsilon)
    rw [← wordOf_withoutEpsilon] at kept
    change List.Sublist _ (wordOf graph.labelledEdges) at kept
    simpa [labelled, partnerLabelled] using kept
  · exact paired.mono (List.Sublist.map _ List.filter_sublist)

theorem keepsLabel_epsilon (brackets : List (BracketFamily × Nat)) {edge : Edge}
    (keeps : keepsLabel brackets edge.label = true) : edge.isEpsilon = false := by
  by_contra epsilon
  have same : edge.label = Grammar.epsilon := by simpa [Edge.isEpsilon] using epsilon
  simp [keepsLabel, same] at keeps

theorem mem_labelledEdges_matchedBrackets {graph : Graph} {edge : Edge} :
    edge ∈ graph.matchedBrackets.graph.labelledEdges ↔
      edge ∈ graph.labelledEdges ∧ keepsLabel graph.partneredBrackets edge.label = true := by
  unfold matchedBrackets
  rw [mem_labelledEdges_ofEdges, mem_labelledEdges]
  rw [List.mem_filter, Array.mem_toList_iff]
  exact and_right_comm

theorem mem_partneredBrackets {graph : Graph} {family : BracketFamily} {id : Nat}
    (below : id < Text.halfWordBound)
    (opened : family.openLabel id ∈ wordOf graph.labelledEdges)
    (closed : family.closeLabel id ∈ wordOf graph.labelledEdges) :
    (family, id) ∈ graph.partneredBrackets :=
  mem_partneredBrackets_iff.mpr (PartnerScan.paired_of_mem below opened closed)

/-- Leaving edges out without changing their order does not bring new brackets. -/
theorem matchedBrackets_subset_of_sublist {graph other : Graph}
    (sub : graph.labelledEdges.Sublist other.labelledEdges) :
    ∀ edge ∈ graph.matchedBrackets.graph.labelledEdges,
      edge ∈ other.matchedBrackets.graph.labelledEdges := by
  intro edge member
  obtain ⟨inGraph, keeps⟩ := mem_labelledEdges_matchedBrackets.mp member
  refine mem_labelledEdges_matchedBrackets.mpr ⟨sub.subset inGraph, ?_⟩
  have known : ∀ bracket ∈ graph.partneredBrackets, bracket ∈ other.partneredBrackets :=
    fun bracket found => mem_partneredBrackets_iff.mpr
      ((mem_partneredBrackets_iff.mp found).mono (sub.map _))
  unfold keepsLabel at keeps ⊢
  split at keeps
  · rfl
  · simpa using known _ (by simpa using keeps)
  · simpa using known _ (by simpa using keeps)
  · cases keeps
  · cases keeps

theorem keepsLabel_of_partners {graph : Graph} {label : Label} (canonical : CanonicalLabel label)
    (partners : ∀ (family : BracketFamily) (id : Nat), id < Text.halfWordBound →
      label = family.openLabel id ∨ label = family.closeLabel id →
      family.openLabel id ∈ wordOf graph.labelledEdges ∧
        family.closeLabel id ∈ wordOf graph.labelledEdges) :
    keepsLabel graph.partneredBrackets label = true := by
  cases canonical with
  | normal => simp [keepsLabel]
  | @opening family id below =>
      obtain ⟨opened, closed⟩ := partners family id below (Or.inl rfl)
      simp [keepsLabel, below, mem_partneredBrackets below opened closed]
  | @closing family id below =>
      obtain ⟨opened, closed⟩ := partners family id below (Or.inr rfl)
      simp [keepsLabel, below, mem_partneredBrackets below opened closed]

theorem labelledEdges_matchedBrackets (graph : Graph) :
    graph.matchedBrackets.graph.labelledEdges = graph.labelledEdges.filter fun edge =>
      keepsLabel graph.partneredBrackets edge.label := by
  unfold matchedBrackets
  rw [labelledEdges_ofEdges, List.filter_comm]
  rfl

theorem edgeCount_matchedBrackets (graph : Graph) :
    graph.matchedBrackets.graph.edgeCount = graph.matchedBrackets.graph.weight :=
  edgeCount_ofEdges_labelled fun _ member => keepsLabel_epsilon _ (List.mem_filter.mp member).2

theorem mem_vertices_matchedBrackets {graph : Graph} {vertex : Vertex}
    (member : vertex ∈ graph.matchedBrackets.graph.vertices) :
    ∃ edge ∈ graph.matchedBrackets.graph.labelledEdges,
      vertex = edge.source ∨ vertex = edge.target := by
  obtain ⟨edge, kept, role⟩ := mem_vertices_ofEdges.mp member
  have labelled := keepsLabel_epsilon _ (List.mem_filter.mp kept).2
  exact ⟨edge, mem_labelledEdges_ofEdges.mpr ⟨kept, labelled⟩, role⟩

theorem bounded_matchedBrackets (graph : Graph) : graph.matchedBrackets.ids.Bounded :=
  fun _ _ member => (mem_partneredBrackets_iff.mp (BracketIds.mem_ofBrackets.mp member)).bounded

theorem distinct_matchedBrackets (graph : Graph) (family : BracketFamily) :
    (graph.matchedBrackets.ids.ofFamily family).Nodup :=
  BracketIds.nodup_ofBrackets (scanned_partneredBrackets graph).distinct family

theorem proper_matchedBrackets (graph : Graph) : graph.matchedBrackets.Proper where
  built := built_ofEdges _
  loops := loopsOnly_ofEdges fun _ member =>
    keepsLabel_epsilon _ (List.mem_filter.mp member).2
  bounded := bounded_matchedBrackets graph
  partners family id below opened closed := by
    have occurs : ∀ label, label ∈ wordOf graph.matchedBrackets.graph.labelledEdges →
        label ∈ wordOf graph.labelledEdges :=
      fun label => wordOf_subset fun edge kept =>
        (mem_labelledEdges_matchedBrackets.mp kept).1
    exact BracketIds.mem_ofBrackets.mpr
      (mem_partneredBrackets below (occurs _ opened) (occurs _ closed))

/-- The strict reduction keeps exactly the brackets that it knows. -/
theorem exact_matchedBrackets (graph : Graph) : graph.matchedBrackets.Exact where
  toProper := proper_matchedBrackets graph
  distinct := distinct_matchedBrackets graph
  covers edge member canonical := by
    obtain ⟨_, keeps⟩ := mem_labelledEdges_matchedBrackets.mp member
    have known : ∀ {family id}, (family, id) ∈ graph.partneredBrackets →
        id ∈ graph.matchedBrackets.ids.ofFamily family := BracketIds.mem_ofBrackets.mpr
    generalize edge.label = label at canonical keeps ⊢
    cases canonical with
    | normal => exact Or.inl rfl
    | @opening family id below =>
        exact Or.inr ⟨family, id, known (by simpa [keepsLabel, below] using keeps), Or.inl rfl⟩
    | @closing family id below =>
        exact Or.inr ⟨family, id, known (by simpa [keepsLabel, below] using keeps), Or.inr rfl⟩
  occurs family id member := by
    have found : (family, id) ∈ graph.partneredBrackets := BracketIds.mem_ofBrackets.mp member
    have paired := mem_partneredBrackets_iff.mp found
    have below := paired.bounded
    have kept : ∀ label, label ∈ wordOf graph.labelledEdges →
        keepsLabel graph.partneredBrackets label = true →
        label ∈ wordOf graph.matchedBrackets.graph.labelledEdges := by
      intro label inWord keeps
      obtain ⟨edge, inGraph, rfl⟩ := List.mem_map.mp inWord
      exact List.mem_map_of_mem (mem_labelledEdges_matchedBrackets.mpr ⟨inGraph, keeps⟩)
    refine paired.occurs.imp (fun opened => ?_) fun closed => ?_
    · exact kept _ opened (by simp [keepsLabel, below, found])
    · exact kept _ closed (by simp [keepsLabel, below, found])

/-! ## The generous reduction -/

theorem mem_labelledEdges_allBrackets {graph : Graph} {edge : Edge} :
    edge ∈ graph.allBrackets.graph.labelledEdges ↔ edge ∈ graph.labelledEdges := by
  unfold allBrackets
  rw [mem_labelledEdges_ofEdges, mem_labelledEdges]
  simp only [List.mem_filter, Array.mem_toList_iff, and_assoc, Bool.not_eq_true', and_self]

theorem mem_occurringBrackets {graph : Graph} {bracket : BracketFamily × Nat} :
    bracket ∈ graph.occurringBrackets ↔
      ∃ edge ∈ graph.edges, (BracketLabel.read edge.label).bracket? = some bracket := by
  unfold occurringBrackets
  rw [PartnerScan.mem_foldl_record]
  simp

theorem covers_allBrackets {graph : Graph} {edge : Edge} (member : edge ∈ graph.edges)
    (canonical : CanonicalLabel edge.label) : graph.allBrackets.ids.Covers edge.label := by
  have known : ∀ {family id}, (BracketLabel.read edge.label).bracket? = some (family, id) →
      id ∈ graph.allBrackets.ids.ofFamily family := fun reading =>
    BracketIds.mem_ofBrackets.mpr (mem_occurringBrackets.mpr ⟨edge, member, reading⟩)
  generalize spelled : edge.label = label at canonical known ⊢
  cases canonical with
  | normal => exact Or.inl rfl
  | @opening family id below =>
      exact Or.inr ⟨family, id, known (by simp [below, BracketLabel.bracket?]), Or.inl rfl⟩
  | @closing family id below =>
      exact Or.inr ⟨family, id, known (by simp [below, BracketLabel.bracket?]), Or.inr rfl⟩

theorem bounded_allBrackets (graph : Graph) : graph.allBrackets.ids.Bounded := by
  intro family id member
  obtain ⟨edge, _, reading⟩ := mem_occurringBrackets.mp (BracketIds.mem_ofBrackets.mp member)
  exact BracketLabel.id_below_of_read reading

theorem distinct_allBrackets (graph : Graph) (family : BracketFamily) :
    (graph.allBrackets.ids.ofFamily family).Nodup :=
  BracketIds.nodup_ofBrackets (PartnerScan.nodup_foldl_record List.nodup_nil) family

theorem mem_allBrackets_of_open {graph : Graph} {family : BracketFamily} {id : Nat}
    (below : id < Text.halfWordBound)
    (opened : family.openLabel id ∈ wordOf graph.labelledEdges) :
    id ∈ graph.allBrackets.ids.ofFamily family := by
  obtain ⟨edge, labelled, spelled⟩ := List.mem_map.mp opened
  have inGraph := (mem_labelledEdges.mp labelled).1
  refine BracketIds.mem_ofBrackets.mpr (mem_occurringBrackets.mpr ⟨edge, inGraph, ?_⟩)
  simp [spelled, below, BracketLabel.bracket?]

theorem proper_allBrackets (graph : Graph) : graph.allBrackets.Proper where
  built := built_ofEdges _
  loops := loopsOnly_ofEdges fun _ member => by
    simpa using (List.mem_filter.mp member).2
  bounded := bounded_allBrackets graph
  partners family id below opened _ :=
    mem_allBrackets_of_open below
      (wordOf_subset (fun _ kept => mem_labelledEdges_allBrackets.mp kept) opened)

end Graph

/-- The ids are those that one of the two reductions finds in the graph. -/
def BracketComponent.KnowsGraph (component : BracketComponent) : Prop :=
  component.ids = component.graph.allBrackets.ids ∨
    component.ids = component.graph.matchedBrackets.ids

section KnowsGraph

variable {component : BracketComponent} (knows : component.KnowsGraph)

include knows

theorem BracketComponent.KnowsGraph.distinct (family : BracketFamily) :
    (component.ids.ofFamily family).Nodup := by
  rcases knows with all | matched
  · exact all ▸ Graph.distinct_allBrackets component.graph family
  · exact matched ▸ Graph.distinct_matchedBrackets component.graph family

theorem BracketComponent.KnowsGraph.proper (built : component.graph.Built)
    (loops : component.graph.LoopsOnly) : component.Proper := by
  rcases knows with all | matched
  · refine ⟨built, loops, all ▸ Graph.bounded_allBrackets component.graph, ?_⟩
    intro family id below opened _
    exact all ▸ Graph.mem_allBrackets_of_open below opened
  · refine ⟨built, loops, matched ▸ Graph.bounded_matchedBrackets component.graph, ?_⟩
    intro family id below opened closed
    exact matched ▸ BracketIds.mem_ofBrackets.mpr
      (Graph.mem_partneredBrackets below opened closed)

end KnowsGraph

/-- The strict reduction keeps balanced walks. -/
theorem BalancedWalk.matchedBrackets {analysis : AnalysisFamily} {graph : Graph} {span : Span}
    {path : List Edge} (walk : BalancedWalk analysis graph span path) :
    BalancedWalk analysis graph.matchedBrackets.graph span path := by
  apply walk.within
  intro edge onPath
  have member : edge.label ∈ wordOf path := List.mem_map.mpr ⟨edge, onPath, rfl⟩
  refine Graph.mem_labelledEdges_matchedBrackets.mpr ⟨walk.inside edge onPath, ?_⟩
  apply Graph.keepsLabel_of_partners (walk.canonical _ member)
  intro family id below spelled
  have occurs : family.openLabel id ∈ wordOf path ∨ family.closeLabel id ∈ wordOf path := by
    rcases spelled with same | same
    · exact Or.inl (same ▸ member)
    · exact Or.inr (same ▸ member)
  obtain ⟨opened, closed⟩ := (walk.matched family).partners below occurs
  exact ⟨wordOf_subset walk.inside opened, wordOf_subset walk.inside closed⟩

end GrammarReach
