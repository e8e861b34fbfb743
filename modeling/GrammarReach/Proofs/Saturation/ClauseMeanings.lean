import GrammarReach.Proofs.Grammar.ClauseReadings
import GrammarReach.Proofs.Saturation.LeastFixpoint
import GrammarReach.Saturation.Reachability

/-!
# What accepted clauses derive

The segments that the solver infers by a rule are chains of edges and of body segments, as
the symbols of the rule have it.  So a rule derives what its clause says exactly if it makes
its segments that way, and a clause that puts the segments of its body into another order is
accepted as a rule that does not.
-/

namespace GrammarReach

/-- A symbol stands for the body segment that it names, or for an edge with its label. -/
def Symbol.Stands (graph : Graph) (segments : Nat → List Span) : Symbol → Span → Prop
  | .segment reference, span => reference.span? segments = some span
  | .edge label, span => ⟨span.start, span.stop, label⟩ ∈ graph.edges

/-- The symbols stand for spans that meet end to start and lead along the span. -/
def Graph.Makes (graph : Graph) (segments : Nat → List Span) (symbols : List Symbol)
    (span : Span) : Prop :=
  ∃ spans, List.Forall₂ (Symbol.Stands graph segments) symbols spans ∧ SpanChain spans span

namespace Rule

/-- The nonterminals of the bodies. -/
def bodies : Rule → List Nonterminal
  | .basic _ => []
  | .prepend rule => [rule.body]
  | .append rule => [rule.body]
  | .insert rule => [rule.body]
  | .concatenate rule => rule.bodies

/-- The only body is known with as many segments as the rule was written for. -/
def Counts (known : Set Entry) : Rule → Prop
  | .basic _ => True
  | .prepend rule => ∀ segments, (rule.body, segments) ∈ known → segments.length = rule.arity
  | .append rule => ∀ segments, (rule.body, segments) ∈ known → segments.length = rule.arity
  | .insert rule => ∀ segments, (rule.body, segments) ∈ known → segments.length = rule.bodyArity
  | .concatenate _ => True

/-- Every segment of the entry is made of known segments of the bodies, as the symbols of
the rule have it. -/
def Yields (graph : Graph) (known : Set Entry) (rule : Rule) (entry : Entry) : Prop :=
  entry.1 = rule.head ∧ ∃ segments : Nat → List Span,
    (∀ position name, rule.bodies[position]? = some name → (name, segments position) ∈ known) ∧
      List.Forall₂ (graph.Makes segments) rule.segments entry.2

end Rule

section Makes

variable {graph : Graph} {segments : Nat → List Span} {span : Span}

private theorem not_spanChain_nil : ¬ SpanChain [] span := by
  intro chain
  cases chain

private theorem spanChain_single_iff {only : Span} : SpanChain [only] span ↔ only = span := by
  constructor
  · intro chain
    cases chain with
    | single => rfl
    | cons _ rest => exact absurd rest not_spanChain_nil
  · rintro rfl
    exact .single only

private theorem makes_single_iff {symbol : Symbol} :
    graph.Makes segments [symbol] span ↔ symbol.Stands graph segments span := by
  constructor
  · rintro ⟨spans, stands, chain⟩
    obtain ⟨only, rest, here, none, rfl⟩ := List.forall₂_cons_left_iff.mp stands
    cases none
    exact spanChain_single_iff.mp chain ▸ here
  · exact fun stands => ⟨[span], .cons stands .nil, .single span⟩

private theorem makes_pair_iff {left right : Symbol} :
    graph.Makes segments [left, right] span ↔
      ∃ middle, left.Stands graph segments ⟨span.start, middle⟩ ∧
        right.Stands graph segments ⟨middle, span.stop⟩ := by
  constructor
  · rintro ⟨spans, stands, chain⟩
    obtain ⟨first, rest, here, others, rfl⟩ := List.forall₂_cons_left_iff.mp stands
    obtain ⟨second, none, there, isNone, rfl⟩ := List.forall₂_cons_left_iff.mp others
    cases isNone
    cases chain with
    | cons meets last =>
        cases spanChain_single_iff.mp last
        exact ⟨first.stop, here, meets ▸ there⟩
  · rintro ⟨middle, here, there⟩
    have stands : List.Forall₂ (Symbol.Stands graph segments) [left, right]
        [⟨span.start, middle⟩, ⟨middle, span.stop⟩] :=
      .cons here (.cons there .nil)
    exact ⟨_, stands,
      @SpanChain.cons ⟨span.start, middle⟩ ⟨middle, span.stop⟩ _ rfl (.single _)⟩

end Makes

/-! ## One body -/

private theorem forall₂_iff_getElem? {α β : Type} {related : α → β → Prop} {items : List α}
    {images : List β} :
    List.Forall₂ related items images ↔ items.length = images.length ∧
      ∀ (index : Nat) item image, items[index]? = some item → images[index]? = some image →
        related item image := by
  rw [List.forall₂_iff_get]
  apply and_congr_right
  intro lengths
  constructor
  · intro places index item image found imageFound
    obtain ⟨inside, rfl⟩ := List.getElem?_eq_some_iff.mp found
    obtain ⟨imageInside, rfl⟩ := List.getElem?_eq_some_iff.mp imageFound
    exact places index inside imageInside
  · intro places index inside imageInside
    exact places index _ _ (List.getElem?_eq_getElem inside)
      (List.getElem?_eq_getElem imageInside)

section Unary

variable {graph : Graph} {segments : Nat → List Span} {result : List Span} {index : Nat}

private theorem makes_segment_iff {span : Span} :
    graph.Makes segments [.segment ⟨0, index⟩] span ↔ (segments 0)[index]? = some span :=
  makes_single_iff

private theorem makes_prepended_iff {label : Label} {span : Span} :
    graph.Makes segments [.edge label, .segment ⟨0, index⟩] span ↔
      ∃ source body, (segments 0)[index]? = some body ∧
        ⟨source, body.start, label⟩ ∈ graph.edges ∧ span = ⟨source, body.stop⟩ := by
  rw [makes_pair_iff]
  constructor
  · rintro ⟨middle, edge, found⟩
    exact ⟨span.start, ⟨middle, span.stop⟩, found, edge, rfl⟩
  · rintro ⟨source, body, found, edge, rfl⟩
    exact ⟨body.start, edge, found⟩

private theorem makes_appended_iff {label : Label} {span : Span} :
    graph.Makes segments [.segment ⟨0, index⟩, .edge label] span ↔
      ∃ target body, (segments 0)[index]? = some body ∧
        ⟨body.stop, target, label⟩ ∈ graph.edges ∧ span = ⟨body.start, target⟩ := by
  rw [makes_pair_iff]
  constructor
  · rintro ⟨middle, found, edge⟩
    exact ⟨span.stop, ⟨span.start, middle⟩, found, edge, rfl⟩
  · rintro ⟨target, body, found, edge, rfl⟩
    exact ⟨body.stop, found, edge⟩

private theorem forall₂_makes_untouched_iff :
    List.Forall₂ (graph.Makes segments) (Symbol.untouched (segments 0).length) result ↔
      result = segments 0 := by
  rw [forall₂_iff_getElem?, Symbol.length_untouched]
  constructor
  · rintro ⟨lengths, places⟩
    apply List.ext_getElem lengths.symm
    intro index inside bodyInside
    have here := places index _ _ (Symbol.getElem?_untouched bodyInside)
      (List.getElem?_eq_getElem inside)
    rw [makes_segment_iff, List.getElem?_eq_getElem bodyInside] at here
    exact (Option.some.inj here).symm
  · rintro rfl
    refine ⟨rfl, fun index symbols span found spanFound => ?_⟩
    rw [Symbol.getElem?_untouched (List.getElem?_eq_some_iff.mp spanFound).1] at found
    cases found
    exact makes_segment_iff.mpr spanFound

private theorem forall₂_makes_modify_iff {change : List Symbol → List Symbol}
    (inside : index < (segments 0).length) :
    List.Forall₂ (graph.Makes segments)
        ((Symbol.untouched (segments 0).length).modify index change) result ↔
      ∃ span, graph.Makes segments (change [.segment ⟨0, index⟩]) span ∧
        result = (segments 0).set index span := by
  have here : ((Symbol.untouched (segments 0).length).modify index change)[index]? =
      some (change [.segment ⟨0, index⟩]) := by
    rw [List.getElem?_modify_eq, Symbol.getElem?_untouched inside]
    rfl
  rw [forall₂_iff_getElem?, List.length_modify, Symbol.length_untouched]
  constructor
  · rintro ⟨lengths, places⟩
    have resultInside : index < result.length := lengths ▸ inside
    refine ⟨result[index], places index _ _ here (List.getElem?_eq_getElem resultInside), ?_⟩
    apply List.ext_getElem
    · rw [List.length_set, lengths]
    · intro other otherInside _
      by_cases same : index = other
      · subst same
        simp
      · have bodyInside : other < (segments 0).length := lengths ▸ otherInside
        have there : ((Symbol.untouched (segments 0).length).modify index change)[other]? =
            some [.segment ⟨0, other⟩] := by
          rw [List.getElem?_modify_ne _ _ same, Symbol.getElem?_untouched bodyInside]
        have kept := makes_segment_iff.mp
          (places other _ _ there (List.getElem?_eq_getElem otherInside))
        rw [List.getElem?_eq_getElem bodyInside] at kept
        simpa [same] using (Option.some.inj kept).symm
  · rintro ⟨span, makes, rfl⟩
    refine ⟨(List.length_set ..).symm, fun other symbols image found imageFound => ?_⟩
    by_cases same : index = other
    · subst same
      rw [here] at found
      rw [List.getElem?_set_self inside] at imageFound
      cases found
      cases imageFound
      exact makes
    · rw [List.getElem?_set_ne same] at imageFound
      rw [List.getElem?_modify_ne _ _ same,
        Symbol.getElem?_untouched (List.getElem?_eq_some_iff.mp imageFound).1] at found
      cases found
      exact makes_segment_iff.mpr imageFound

private theorem forall₂_makes_insertIdx_iff {label : Label}
    (inside : index ≤ (segments 0).length) :
    List.Forall₂ (graph.Makes segments)
        ((Symbol.untouched (segments 0).length).insertIdx index [.edge label]) result ↔
      ∃ span : Span, ⟨span.start, span.stop, label⟩ ∈ graph.edges ∧
        result = (segments 0).insertIdx index span := by
  have symbolsInside : index ≤ (Symbol.untouched (segments 0).length).length := by
    rwa [Symbol.length_untouched]
  have sides : List.Forall₂ (graph.Makes segments)
      ((Symbol.untouched (segments 0).length).insertIdx index [.edge label]) result ↔
        List.Forall₂ (flip (graph.Makes segments)) result
          ((Symbol.untouched (segments 0).length).insertIdx index [.edge label]) :=
    ⟨fun makes => makes.flip, fun makes => makes.flip⟩
  have rest : List.Forall₂ (flip (graph.Makes segments)) (result.eraseIdx index)
      (Symbol.untouched (segments 0).length) ↔ result.eraseIdx index = segments 0 := by
    rw [← forall₂_makes_untouched_iff]
    exact ⟨fun makes => makes.flip, fun makes => makes.flip⟩
  rw [sides, AtomClause.forall₂_insertIdx_iff symbolsInside, rest]
  constructor
  · rintro ⟨⟨span, found, makes⟩, erased⟩
    obtain ⟨resultInside, rfl⟩ := List.getElem?_eq_some_iff.mp found
    refine ⟨result[index], makes_single_iff.mp makes, ?_⟩
    rw [← erased, List.insertIdx_eraseIdx_getElem resultInside]
  · rintro ⟨span, edge, rfl⟩
    have found : ((segments 0).insertIdx index span)[index]? = some span := by
      rw [List.getElem?_insertIdx_self, if_pos inside]
    exact ⟨⟨span, found, makes_single_iff.mpr edge⟩, List.eraseIdx_insertIdx_self span⟩

end Unary

/-! ## Concatenations -/

section Concatenations

variable {graph : Graph} {segments : Nat → List Span}

private theorem stands_segments_iff {chain : List SegmentRef} {spans : List Span} :
    List.Forall₂ (Symbol.Stands graph segments) (chain.map .segment) spans ↔
      List.Forall₂ (fun reference span => reference.span? segments = some span) chain spans := by
  rw [List.forall₂_map_left_iff]
  exact Iff.rfl

private theorem forall₂_spansOf {chain : List SegmentRef}
    (named : ∀ reference ∈ chain, ∃ span, reference.span? segments = some span) :
    List.Forall₂ (fun reference span => reference.span? segments = some span) chain
      (SegmentRef.spansOf segments chain) := by
  induction chain with
  | nil => exact .nil
  | cons reference chain induction =>
      obtain ⟨span, here⟩ := named reference (by simp)
      rw [SegmentRef.spansOf, List.filterMap_cons_some here]
      exact .cons here (induction fun other member => named other (by simp [member]))

private theorem chainSpan?_of_spanChain {chain : List SegmentRef} {spans : List Span} {span : Span}
    (named : List.Forall₂ (fun reference span => reference.span? segments = some span)
      chain spans) (spanned : SpanChain spans span) :
    SegmentRef.chainSpan? segments chain = some span ∧
      ∀ link ∈ ConcatenationRule.neighbours chain, ∀ left right,
        link.1.span? segments = some left → link.2.span? segments = some right →
          left.stop = right.start := by
  induction spanned generalizing chain with
  | single span =>
      obtain ⟨reference, none, here, isNone, rfl⟩ := List.forall₂_cons_right_iff.mp named
      cases isNone
      simp [SegmentRef.chainSpan?, ConcatenationRule.neighbours, here]
  | @cons first rest spans meets spanned induction =>
      obtain ⟨reference, others, here, later, rfl⟩ := List.forall₂_cons_right_iff.mp named
      obtain ⟨found, linked⟩ := induction later
      cases later with
      | nil => exact absurd spanned not_spanChain_nil
      | @cons next second others spans there later =>
          have starts : rest.start = second.start := by
            cases spanned with
            | single => rfl
            | cons => rfl
          constructor
          · simp only [SegmentRef.chainSpan?, List.head?_cons, Option.bind_eq_bind,
              Option.bind_some, there, Option.pure_def] at found
            simp only [SegmentRef.chainSpan?, List.head?_cons, List.getLast?_cons_cons,
              Option.bind_eq_bind, Option.bind_some, here, Option.pure_def]
            obtain ⟨last, lastFound, rest⟩ := Option.bind_eq_some_iff.mp found
            obtain ⟨final, finalFound, same⟩ := Option.bind_eq_some_iff.mp rest
            rw [lastFound, Option.bind_some, finalFound, Option.bind_some, ← Option.some.inj same]
          · intro link member left right leftFound rightFound
            rcases List.mem_cons.mp member with rfl | behind
            · cases here.symm.trans leftFound
              cases there.symm.trans rightFound
              exact meets.trans starts
            · exact linked link behind left right leftFound rightFound

private theorem mapM_eq_some_of_forall₂ {α β : Type} {items : List α} {function : α → Option β}
    {results : List β}
    (related : List.Forall₂ (fun item result => function item = some result) items results) :
    items.mapM function = some results := by
  induction related with
  | nil => rfl
  | cons here _ induction => simp [List.mapM_cons, here, induction]

private theorem connects_iff_makes {rule : ConcatenationRule} (proper : rule.Proper)
    {result : List Span} :
    rule.Connects segments result ↔
      List.Forall₂ (graph.Makes segments) (rule.wiring.map (·.map .segment)) result := by
  rw [List.forall₂_map_left_iff]
  constructor
  · intro connects
    have spanChains := connects.spanChains proper
    rw [List.forall₂_map_left_iff] at spanChains
    have inWiring : ∀ chain ∈ rule.wiring, chain ∈ rule.wiring := fun _ member => member
    refine ((List.forall₂_and_left _ _).mpr ⟨inWiring, spanChains⟩).imp ?_
    rintro chain span ⟨member, spanned⟩
    refine ⟨_, stands_segments_iff.mpr (forall₂_spansOf fun reference inChain => ?_), spanned⟩
    exact connects.exists_span proper (List.mem_flatten.mpr ⟨chain, member, inChain⟩)
  · intro makes
    refine ⟨?_, ?_, ?_⟩
    · intro position inside
      apply ConcatenationRule.bodyArity_le
      rintro reference member rfl
      obtain ⟨chain, inWiring, inChain⟩ := List.mem_flatten.mp member
      obtain ⟨span, _, spans, stands, _⟩ := exists_related makes.flip inWiring
      obtain ⟨other, _, named⟩ := exists_related (stands_segments_iff.mp stands).flip inChain
      exact (List.getElem?_eq_some_iff.mp named).1
    · intro link member
      obtain ⟨chain, inWiring, inChain⟩ := List.mem_flatMap.mp member
      obtain ⟨span, _, spans, stands, spanned⟩ := exists_related makes.flip inWiring
      exact (chainSpan?_of_spanChain (stands_segments_iff.mp stands) spanned).2 link inChain
    · apply mapM_eq_some_of_forall₂
      apply makes.imp
      rintro chain span ⟨spans, stands, spanned⟩
      exact (chainSpan?_of_spanChain (stands_segments_iff.mp stands) spanned).1

end Concatenations

/-! ## Rules on their own -/

namespace Rule

variable {graph : Graph} {known : Set Entry} {entry : Entry}

private theorem mem_known_of_single {body name : Nonterminal} {segments : List Span}
    {position : Nat} (inKnown : (body, segments) ∈ known)
    (found : [body][position]? = some name) : (name, segments) ∈ known := by
  cases position with
  | zero =>
      cases found
      exact inKnown
  | succ position => cases found

private theorem infers_basic_iff {rule : BasicRule} :
    (Grammar.ofRules [.basic rule]).Infers graph known entry ↔
      (Rule.basic rule).Yields graph known entry := by
  obtain ⟨name, result⟩ := entry
  constructor
  · intro infers
    cases infers with
    | @basic other edge member edgeMember label =>
        cases List.mem_singleton.mp member
        have stands : Symbol.Stands graph (fun _ => []) (.edge rule.label)
            ⟨edge.source, edge.target⟩ := by
          rw [← label]
          exact edgeMember
        refine ⟨rfl, fun _ => [], ?_, .cons (makes_single_iff.mpr stands) .nil⟩
        intro position name found
        cases found
    | prepend member => cases member
    | append member => cases member
    | insert member => cases member
    | concatenate _ member => cases member
  · rintro ⟨head, segments, _, makes⟩
    obtain ⟨span, rest, here, none, same⟩ := List.forall₂_cons_left_iff.mp makes
    cases none
    cases head
    cases same
    exact .basic (List.mem_singleton.mpr rfl) (makes_single_iff.mp here) rfl

private theorem infers_prepend_iff {rule : ExtensionRule} (inside : rule.index < rule.arity)
    (counts : (Rule.prepend rule).Counts known) :
    (Grammar.ofRules [.prepend rule]).Infers graph known entry ↔
      (Rule.prepend rule).Yields graph known entry := by
  obtain ⟨name, result⟩ := entry
  constructor
  · intro infers
    cases infers with
    | @prepend other body span source member inKnown found edge =>
        cases List.mem_singleton.mp member
        have count := counts body inKnown
        refine ⟨rfl, fun _ => body, fun position name => mem_known_of_single inKnown, ?_⟩
        rw [segments, ← count]
        apply (forall₂_makes_modify_iff (count ▸ inside)).mpr
        exact ⟨_, makes_prepended_iff.mpr ⟨source, span, found, edge, rfl⟩, rfl⟩
    | basic member => cases member
    | append member => cases member
    | insert member => cases member
    | concatenate _ member => cases member
  · rintro ⟨head, segments, bodies, makes⟩
    have inKnown := bodies 0 rule.body rfl
    have count := counts _ inKnown
    rw [Rule.segments, ← count, forall₂_makes_modify_iff (count ▸ inside)] at makes
    obtain ⟨span, made, same⟩ := makes
    obtain ⟨source, body, found, edge, rfl⟩ := makes_prepended_iff.mp made
    cases head
    cases same
    exact .prepend (List.mem_singleton.mpr rfl) inKnown found edge

private theorem infers_append_iff {rule : ExtensionRule} (inside : rule.index < rule.arity)
    (counts : (Rule.append rule).Counts known) :
    (Grammar.ofRules [.append rule]).Infers graph known entry ↔
      (Rule.append rule).Yields graph known entry := by
  obtain ⟨name, result⟩ := entry
  constructor
  · intro infers
    cases infers with
    | @append other body span target member inKnown found edge =>
        cases List.mem_singleton.mp member
        have count := counts body inKnown
        refine ⟨rfl, fun _ => body, fun position name => mem_known_of_single inKnown, ?_⟩
        rw [segments, ← count]
        apply (forall₂_makes_modify_iff (count ▸ inside)).mpr
        exact ⟨_, makes_appended_iff.mpr ⟨target, span, found, edge, rfl⟩, rfl⟩
    | basic member => cases member
    | prepend member => cases member
    | insert member => cases member
    | concatenate _ member => cases member
  · rintro ⟨head, segments, bodies, makes⟩
    have inKnown := bodies 0 rule.body rfl
    have count := counts _ inKnown
    rw [Rule.segments, ← count, forall₂_makes_modify_iff (count ▸ inside)] at makes
    obtain ⟨span, made, same⟩ := makes
    obtain ⟨target, body, found, edge, rfl⟩ := makes_appended_iff.mp made
    cases head
    cases same
    exact .append (List.mem_singleton.mpr rfl) inKnown found edge

private theorem infers_insert_iff {rule : InsertionRule} (inside : rule.index ≤ rule.bodyArity)
    (counts : (Rule.insert rule).Counts known) :
    (Grammar.ofRules [.insert rule]).Infers graph known entry ↔
      (Rule.insert rule).Yields graph known entry := by
  obtain ⟨name, result⟩ := entry
  constructor
  · intro infers
    cases infers with
    | @insert other body edge member inKnown _ edgeMember label =>
        cases List.mem_singleton.mp member
        have count := counts body inKnown
        refine ⟨rfl, fun _ => body, fun position name => mem_known_of_single inKnown, ?_⟩
        rw [segments, ← count]
        apply (forall₂_makes_insertIdx_iff (count ▸ inside)).mpr
        exact ⟨⟨edge.source, edge.target⟩, label ▸ edgeMember, rfl⟩
    | basic member => cases member
    | prepend member => cases member
    | append member => cases member
    | concatenate _ member => cases member
  · rintro ⟨head, segments, bodies, makes⟩
    have inKnown := bodies 0 rule.body rfl
    have count := counts _ inKnown
    rw [Rule.segments, ← count, forall₂_makes_insertIdx_iff (count ▸ inside)] at makes
    obtain ⟨span, edge, same⟩ := makes
    cases head
    cases same
    exact .insert (List.mem_singleton.mpr rfl) inKnown (count ▸ inside) edge rfl

private theorem infers_concatenate_iff {rule : ConcatenationRule} (proper : rule.Proper) :
    (Grammar.ofRules [.concatenate rule]).Infers graph known entry ↔
      (Rule.concatenate rule).Yields graph known entry := by
  obtain ⟨name, result⟩ := entry
  constructor
  · intro infers
    cases infers with
    | concatenate segments member _ bodies connects =>
        cases List.mem_singleton.mp member
        exact ⟨rfl, segments, bodies, (connects_iff_makes proper).mp connects⟩
    | basic member => cases member
    | prepend member => cases member
    | append member => cases member
    | insert member => cases member
  · rintro ⟨head, segments, bodies, makes⟩
    cases head
    exact .concatenate segments (List.mem_singleton.mpr rfl) proper bodies
      ((connects_iff_makes proper).mpr makes)

theorem infers_iff_yields {rule : Rule} (indexed : rule.Indexed) (counts : rule.Counts known) :
    (Grammar.ofRules [rule]).Infers graph known entry ↔ rule.Yields graph known entry := by
  cases rule with
  | basic rule => exact infers_basic_iff
  | prepend rule => exact infers_prepend_iff indexed counts
  | append rule => exact infers_append_iff indexed counts
  | insert rule => exact infers_insert_iff indexed counts
  | concatenate rule => exact infers_concatenate_iff indexed

/-- An accepted clause says what its rule makes exactly if it keeps the order of its only
body where it brings in a label, and what the rule makes is what the solver infers by it. -/
theorem means_iff_of_read {text : String} {rule : Rule} (accepted : Rule.read text = .ok rule) :
    ∃ clause, AtomClause.read (Clause.beforeStop (Text.trim text.toList)) = some clause ∧
      (clause.Means rule.segments ↔ clause.InOrder rule) ∧
      ∀ graph known, rule.Counts known → ∀ entry,
        (Grammar.ofRules [rule]).Infers graph known entry ↔ rule.Yields graph known entry := by
  unfold Rule.read at accepted
  simp only at accepted
  split at accepted
  · cases accepted
  · rename_i clause clauseRead
    have shape := AtomClause.toRule_eq_ok_iff.mp accepted
    have written := AtomClause.written_of_read clauseRead
    refine ⟨clause, clauseRead, ?_, fun graph known counts entry => ?_⟩
    · exact shape.means_iff fun body member => (written.bodies body member).arguments
    · exact infers_iff_yields shape.indexed counts

end Rule

/-! ## Clauses in and out of order -/

def lettersCycle : Graph :=
  .ofEdges [⟨0, 1, "a"⟩, ⟨1, 2, "b"⟩, ⟨2, 3, "c"⟩, ⟨3, 0, "d"⟩]

def orderedText : String :=
  "Q(X0, X1 c) :- P(X0, X1)."

/-- The clause lengthens the second segment and leaves it second. -/
def orderedClause : AtomClause :=
  ⟨⟨"Q", [["X0"], ["X1", "c"]]⟩, [⟨"P", [["X0"], ["X1"]]⟩]⟩

/-- The clause that keeps the order of its body means its rule, and the rule derives that. -/
theorem Rule.means_iff_of_read_ordered :
    Rule.read orderedText = .ok (.append ⟨"Q", "P", "c", 1, 2⟩) ∧
      orderedClause.Means [[.segment ⟨0, 0⟩], [.segment ⟨0, 1⟩, .edge "c"]] ∧
      (Grammar.ofRules [.append ⟨"Q", "P", "c", 1, 2⟩]).Infers lettersCycle
        {("P", [⟨0, 1⟩, ⟨1, 2⟩])} ("Q", [⟨0, 1⟩, ⟨1, 3⟩]) := by
  have accepted : Rule.read orderedText = .ok (.append ⟨"Q", "P", "c", 1, 2⟩) := by
    decide +kernel
  have ordered : AtomClause.read (Clause.beforeStop (Text.trim orderedText.toList)) =
      some orderedClause := by
    decide +kernel
  obtain ⟨clause, clauseRead, means, infers⟩ := Rule.means_iff_of_read accepted
  cases clauseRead.symm.trans ordered
  refine ⟨accepted, means.mpr ⟨_, rfl, by decide, by decide, rfl⟩, ?_⟩
  apply (infers lettersCycle _ _ _).mpr
  · refine ⟨rfl, fun _ => [⟨0, 1⟩, ⟨1, 2⟩], fun _ _ => Rule.mem_known_of_single rfl, ?_⟩
    apply List.Forall₂.cons (makes_segment_iff.mpr rfl)
    exact .cons (makes_appended_iff.mpr ⟨3, ⟨1, 2⟩, rfl, by decide +kernel, rfl⟩) .nil
  · rintro segments inKnown
    cases inKnown
    rfl

def crossedText : String :=
  "Q(X1 c, X0) :- P(X0, X1)."

/-- The clause lengthens the second segment and puts it first. -/
def crossedClause : AtomClause :=
  ⟨⟨"Q", [["X1", "c"], ["X0"]]⟩, [⟨"P", [["X0"], ["X1"]]⟩]⟩

def crossedGrammarText : String :=
  "A(a).\nP(X0, b) :- A(X0).\nQ(X1 c, X0) :- P(X0, X1).\nS(X1 X0) :- Q(X0, X1)."

/-- The grammar lengthens the first segment and leaves it first. -/
def crossedGrammar : Grammar where
  basic := [⟨"A", "a"⟩]
  append := [⟨"Q", "P", "c", 0, 2⟩]
  insert := [⟨"P", "A", "b", 1, 1⟩]
  concatenate := [⟨"S", ["Q"], [[⟨0, 1⟩, ⟨0, 0⟩]]⟩]

/-- The clause is accepted as a rule that lengthens the other segment, and the word that it
says is not found. -/
theorem not_means_crossed :
    Rule.read crossedText = .ok (.append ⟨"Q", "P", "c", 0, 2⟩) ∧
      AtomClause.read (Clause.beforeStop (Text.trim crossedText.toList)) =
        some crossedClause ∧
      crossedClause.Means [[.segment ⟨0, 1⟩, .edge "c"], [.segment ⟨0, 0⟩]] ∧
      ¬ crossedClause.Means (Rule.append ⟨"Q", "P", "c", 0, 2⟩).segments ∧
      Grammar.read crossedGrammarText = .ok crossedGrammar ∧
      (solve lettersCycle crossedGrammar {}).spans = [] := by
  have first : AtomClause.Names (AtomClause.properBodies crossedClause.bodies) "X0" ⟨0, 0⟩ :=
    ⟨⟨"P", [["X0"], ["X1"]]⟩, by decide, by decide⟩
  have second : AtomClause.Names (AtomClause.properBodies crossedClause.bodies) "X1" ⟨0, 1⟩ :=
    ⟨⟨"P", [["X0"], ["X1"]]⟩, by decide, by decide⟩
  refine ⟨by decide +kernel, by decide +kernel, ?_, ?_, by decide +kernel, by decide +kernel⟩
  · apply List.Forall₂.cons
    · exact .segment (by decide) second (.edge (by decide) .nil)
    · exact .cons (.segment (by decide) first .nil) .nil
  · have shape : crossedClause.Shape (.append ⟨"Q", "P", "c", 0, 2⟩) := by
      apply AtomClause.toRule_eq_ok_iff.mp
      decide +kernel
    rw [shape.means_iff (by decide)]
    rintro ⟨body, only, repeats⟩
    cases only
    exact absurd repeats.same (by decide)

end GrammarReach
