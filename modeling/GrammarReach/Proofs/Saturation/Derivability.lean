import GrammarReach.Proofs.Graph.Components
import GrammarReach.Proofs.Saturation.Runs

/-!
# Derivability in a grammar

A grammar derives segments for its nonterminals directly from its rules and the
edges of a graph.  The numbered program of the grammar derives the same segments
with the same edges.
-/

namespace GrammarReach

/-- The stop of each segment reaches the start of the next one. -/
def Graph.Follows (graph : Graph) (segments : List Span) : Prop :=
  ∀ pair ∈ segments.zip segments.tail,
    (Components.ofGraph graph).reaches pair.1.stop pair.2.start = true

theorem Graph.follows_single (graph : Graph) (span : Span) : graph.Follows [span] := by
  simp [Follows]

theorem isConsistent_iff_follows {graph : Graph} {derivation : Derivation} :
    RunState.isConsistent (Components.ofGraph graph) derivation = true ↔
      graph.Follows derivation.segments := by
  simp only [RunState.isConsistent, List.all_eq_true, Graph.Follows]

/-- The segments that a grammar derives for a nonterminal over a graph, with the
edges that the derivation uses. -/
inductive Grammar.Derives (grammar : Grammar) (graph : Graph) :
    Nonterminal → List Span → List Edge → Prop where
  | basic {rule : BasicRule} {edge : Edge} :
      rule ∈ grammar.basic → edge ∈ graph.edges → edge.label = rule.label →
      Derives grammar graph rule.head [⟨edge.source, edge.target⟩] [edge]
  | prepend {rule : ExtensionRule} {segments : List Span} {used : List Edge}
      {span : Span} {source : Vertex} :
      rule ∈ grammar.prepend → Derives grammar graph rule.body segments used →
      segments[rule.index]? = some span →
      ⟨source, span.start, rule.label⟩ ∈ graph.edges →
      graph.Follows (segments.set rule.index ⟨source, span.stop⟩) →
      Derives grammar graph rule.head (segments.set rule.index ⟨source, span.stop⟩)
        (⟨source, span.start, rule.label⟩ :: used)
  | append {rule : ExtensionRule} {segments : List Span} {used : List Edge}
      {span : Span} {target : Vertex} :
      rule ∈ grammar.append → Derives grammar graph rule.body segments used →
      segments[rule.index]? = some span →
      ⟨span.stop, target, rule.label⟩ ∈ graph.edges →
      graph.Follows (segments.set rule.index ⟨span.start, target⟩) →
      Derives grammar graph rule.head (segments.set rule.index ⟨span.start, target⟩)
        (⟨span.stop, target, rule.label⟩ :: used)
  | insert {rule : InsertionRule} {segments : List Span} {used : List Edge}
      {edge : Edge} :
      rule ∈ grammar.insert → Derives grammar graph rule.body segments used →
      rule.index ≤ segments.length → edge ∈ graph.edges → edge.label = rule.label →
      graph.Follows (segments.insertIdx rule.index ⟨edge.source, edge.target⟩) →
      Derives grammar graph rule.head
        (segments.insertIdx rule.index ⟨edge.source, edge.target⟩) (edge :: used)
  | concatenate {rule : ConcatenationRule} {result : List Span}
      (segments : Nat → List Span) (used : Nat → List Edge) :
      rule ∈ grammar.concatenate → rule.Proper →
      (∀ position name, rule.bodies[position]? = some name →
        Derives grammar graph name (segments position) (used position)) →
      rule.Connects segments result → graph.Follows result →
      Derives grammar graph rule.head result
        ((List.range rule.bodies.length).flatMap used)

section Representation

variable {graph : Graph} {grammar : Grammar} {nonterminals : Nonterminals}
  {program : Program}

private theorem getElem?_of_map_some {names : List Nonterminal}
    {ids : List NonterminalId} (numbered : names.map nonterminals.id? = ids.map some)
    {position : Nat} {name : Nonterminal} (found : names[position]? = some name) :
    ∃ id, ids[position]? = some id ∧ nonterminals.id? name = some id := by
  have pair : (names[position]?).map nonterminals.id? = (ids[position]?).map some := by
    rw [← List.getElem?_map, ← List.getElem?_map, numbered]
  rw [found] at pair
  obtain ⟨id, idFound, same⟩ := Option.map_eq_some_iff.mp pair.symm
  exact ⟨id, idFound, same.symm⟩

/-- The derivations that a join is given for the segments of its bodies. -/
private def bodiesOf (join : Join) (segments : Nat → List Span) : List Derivation :=
  join.bodies.zipIdx.map fun item => ⟨item.1, segments item.2⟩

private theorem getElem?_bodiesOf {join : Join} {segments : Nat → List Span}
    {position : Nat} :
    (bodiesOf join segments)[position]? =
      (join.bodies[position]?).map fun id => ⟨id, segments position⟩ := by
  rw [bodiesOf, List.getElem?_map, List.getElem?_zipIdx]
  cases join.bodies[position]? with
  | none => rfl
  | some id => simp

private theorem map_nonterminal_bodiesOf (join : Join) (segments : Nat → List Span) :
    (bodiesOf join segments).map Derivation.nonterminal = join.bodies := by
  apply List.ext_getElem?
  intro position
  rw [List.getElem?_map, getElem?_bodiesOf]
  cases join.bodies[position]? with
  | none => rfl
  | some id => rfl

private theorem segmentsAt_bodiesOf {join : Join} {segments : Nat → List Span}
    {position : Nat} (inside : position < join.bodies.length) :
    Derivation.segmentsAt (bodiesOf join segments) position = segments position := by
  have found := List.getElem?_eq_getElem inside
  have body : (bodiesOf join segments)[position]? =
      some ⟨join.bodies[position], segments position⟩ := by
    rw [getElem?_bodiesOf, found]
    rfl
  exact Derivation.segmentsAt_eq body

private theorem span?_congr {first second : Nat → List Span} {count : Nat}
    (same : ∀ position < count, first position = second position)
    {reference : SegmentRef} (inside : reference.body < count) :
    reference.span? first = reference.span? second := by
  simp only [SegmentRef.span?, same _ inside]

private theorem chainSpan?_congr {first second : Nat → List Span}
    {chain : List SegmentRef}
    (same : ∀ reference ∈ chain, reference.span? first = reference.span? second) :
    SegmentRef.chainSpan? first chain = SegmentRef.chainSpan? second chain := by
  unfold SegmentRef.chainSpan?
  cases headFound : chain.head? with
  | none => rfl
  | some head =>
      cases lastFound : chain.getLast? with
      | none => rfl
      | some last =>
          simp only [Option.bind_eq_bind, Option.bind_some,
            same head (List.mem_of_head? headFound),
            same last (List.mem_of_getLast? lastFound)]

private theorem mapM_congr {α β : Type} {items : List α} {first second : α → Option β}
    (same : ∀ item ∈ items, first item = second item) :
    items.mapM first = items.mapM second := by
  induction items with
  | nil => rfl
  | cons item items induction =>
      rw [List.mapM_cons, List.mapM_cons, same item (by simp),
        induction fun other member => same other (by simp [member])]

private theorem connects_congr {rule : ConcatenationRule} (proper : rule.Proper)
    {first second : Nat → List Span}
    (same : ∀ position < rule.bodies.length, first position = second position)
    {result : List Span} (connects : rule.Connects first result) :
    rule.Connects second result := by
  have references : ∀ reference ∈ rule.wiring.flatten,
      reference.span? first = reference.span? second := fun reference member =>
    span?_congr same (proper.body_lt reference member)
  refine ⟨?_, ?_, ?_⟩
  · intro position inside
    rw [← same position inside]
    exact connects.arities position inside
  · intro link member left right leftFound rightFound
    obtain ⟨leftMember, rightMember⟩ := rule.mem_flatten_of_mem_links member
    rw [← references _ leftMember] at leftFound
    rw [← references _ rightMember] at rightFound
    exact connects.linked link member left right leftFound rightFound
  · rw [← connects.chained]
    refine mapM_congr fun chain chainMember => (chainSpan?_congr fun reference member => ?_).symm
    exact references reference (List.mem_flatten.mpr ⟨chain, chainMember, member⟩)

private theorem derives_unary {problem : Problem} {body derivation : Derivation}
    {used : List Edge} {edge : Edge} (derives : problem.Derives body used)
    (makes : problem.program.Makes problem.graph [body] (some edge) derivation)
    (consistent : RunState.isConsistent problem.components derivation = true) :
    problem.Derives derivation (edge :: used) := by
  have bodies : ∀ (position : Nat) other, [body][position]? = some other →
      problem.Derives other used := by
    intro position other found
    cases position with
    | zero =>
        cases found
        exact derives
    | succ position => simp at found
  simpa using Problem.Derives.made (fun _ => used) bodies makes consistent

private theorem derives_join (represents : program.Represents nonterminals grammar)
    {rule : ConcatenationRule} (member : rule ∈ grammar.concatenate) (proper : rule.Proper)
    {segments : Nat → List Span} {used : Nat → List Edge} {result : List Span}
    (connects : rule.Connects segments result) (follows : graph.Follows result)
    (bodies : ∀ position name, rule.bodies[position]? = some name →
      ∃ id, nonterminals.id? name = some id ∧
        Problem.Derives ⟨graph, program, .ofGraph graph⟩ ⟨id, segments position⟩
          (used position)) :
    ∃ id, nonterminals.id? rule.head = some id ∧
      Problem.Derives ⟨graph, program, .ofGraph graph⟩ ⟨id, result⟩
        ((List.range rule.bodies.length).flatMap used) := by
  obtain ⟨join, numbers⟩ := represents.joinNumbers rule member proper
  have count := numbers.length_bodies
  have hasBody : 0 < join.bodies.length := by
    rw [count]
    exact List.length_pos_iff.mpr proper.bodies_ne_nil
  have filed : program.Uses join := ⟨_, 0, (represents.joins _ join 0).mpr
    ⟨rule, member, proper, numbers, List.getElem?_eq_getElem hasBody⟩⟩
  have derived : ∀ position body, (bodiesOf join segments)[position]? = some body →
      Problem.Derives ⟨graph, program, .ofGraph graph⟩ body (used position) := by
    intro position body found
    rw [getElem?_bodiesOf] at found
    obtain ⟨id, idFound, rfl⟩ := Option.map_eq_some_iff.mp found
    have inside : position < rule.bodies.length := by
      rw [← count]
      exact (List.getElem?_eq_some_iff.mp idFound).1
    have nameFound := List.getElem?_eq_getElem inside
    obtain ⟨sameId, sameFound, numbered⟩ :=
      getElem?_of_map_some numbers.bodies nameFound
    rw [idFound] at sameFound
    cases sameFound
    obtain ⟨otherId, otherNumbered, problemDerives⟩ := bodies position _ nameFound
    rw [numbered] at otherNumbered
    cases otherNumbered
    exact problemDerives
  have connected : join.Connects (Derivation.segmentsAt (bodiesOf join segments))
      result := by
    rw [numbers.connects_iff]
    refine connects_congr proper (fun position inside => ?_) connects
    exact (segmentsAt_bodiesOf (count ▸ inside)).symm
  have whole := @Problem.Derives.made ⟨graph, program, .ofGraph graph⟩ _ _ _
    used derived (.join filed (map_nonterminal_bodiesOf join segments) connected)
    (isConsistent_iff_follows.mpr follows)
  have sizes : (bodiesOf join segments).length = rule.bodies.length := by
    simp [bodiesOf, count]
  rw [sizes] at whole
  exact ⟨join.head, numbers.head, by simpa using whole⟩

/-- What a grammar derives, its program derives. -/
theorem Grammar.Derives.toProblem (represents : program.Represents nonterminals grammar)
    {name : Nonterminal} {segments : List Span} {used : List Edge}
    (derives : grammar.Derives graph name segments used) :
    ∃ id, nonterminals.id? name = some id ∧
      Problem.Derives ⟨graph, program, .ofGraph graph⟩ ⟨id, segments⟩ used := by
  induction derives with
  | @basic rule edge member edgeMember sameLabel =>
      obtain ⟨head, numbered⟩ := represents.basicNumbers rule member
      have filed := (represents.basic edge.label head).mpr
        ⟨rule, member, sameLabel.symm, numbered⟩
      have derived := @Problem.Derives.made ⟨graph, program, .ofGraph graph⟩ [] _ _
        (fun _ => []) (by simp) (.basic edgeMember filed)
        (isConsistent_iff_follows.mpr (graph.follows_single _))
      exact ⟨head, numbered, by simpa using derived⟩
  | @prepend rule segments used span source member _ found edgeMember follows induction =>
      obtain ⟨body, step, bodyNumbered, numbers⟩ := represents.prependNumbers rule member
      obtain ⟨id, idNumbered, derived⟩ := induction
      rw [bodyNumbered] at idNumbered
      cases idNumbered
      have filed := (represents.prepend body step).mpr ⟨rule, member, bodyNumbered, numbers⟩
      obtain ⟨headNumbered, sameLabel, sameIndex⟩ := numbers
      rw [← sameLabel] at edgeMember ⊢
      rw [← sameIndex] at found follows ⊢
      exact ⟨step.head, headNumbered, derives_unary derived
        (@Program.Makes.prepend program graph ⟨body, segments⟩ step span source filed found
          edgeMember)
        (isConsistent_iff_follows.mpr follows)⟩
  | @append rule segments used span target member _ found edgeMember follows induction =>
      obtain ⟨body, step, bodyNumbered, numbers⟩ := represents.appendNumbers rule member
      obtain ⟨id, idNumbered, derived⟩ := induction
      rw [bodyNumbered] at idNumbered
      cases idNumbered
      have filed := (represents.append body step).mpr ⟨rule, member, bodyNumbered, numbers⟩
      obtain ⟨headNumbered, sameLabel, sameIndex⟩ := numbers
      rw [← sameLabel] at edgeMember ⊢
      rw [← sameIndex] at found follows ⊢
      exact ⟨step.head, headNumbered, derives_unary derived
        (@Program.Makes.append program graph ⟨body, segments⟩ step span target filed found
          edgeMember)
        (isConsistent_iff_follows.mpr follows)⟩
  | @insert rule segments used edge member _ inside edgeMember label follows induction =>
      obtain ⟨body, step, bodyNumbered, numbers⟩ := represents.insertNumbers rule member
      obtain ⟨id, idNumbered, derived⟩ := induction
      rw [bodyNumbered] at idNumbered
      cases idNumbered
      have filed := (represents.insert body step).mpr ⟨rule, member, bodyNumbered, numbers⟩
      obtain ⟨headNumbered, sameLabel, sameIndex⟩ := numbers
      rw [← sameLabel] at label
      rw [← sameIndex] at inside follows ⊢
      exact ⟨step.head, headNumbered, derives_unary derived
        (@Program.Makes.insert program graph ⟨body, segments⟩ step edge filed inside
          edgeMember label)
        (isConsistent_iff_follows.mpr follows)⟩
  | @concatenate rule result segments used member proper _ connects follows induction =>
      exact derives_join represents member proper connects follows induction

private theorem derives_concatenation (represents : program.Represents nonterminals grammar)
    {join : Join} (filed : program.Uses join) {bodies : List Derivation}
    (names : bodies.map Derivation.nonterminal = join.bodies)
    {used : Nat → List Edge} {result : List Span}
    (connects : join.Connects (Derivation.segmentsAt bodies) result)
    (follows : graph.Follows result)
    (derived : ∀ (position : Nat) body, bodies[position]? = some body →
      ∃ name, nonterminals.id? name = some body.nonterminal ∧
        grammar.Derives graph name body.segments (used position)) :
    ∃ name, nonterminals.id? name = some join.head ∧
      grammar.Derives graph name result ((List.range bodies.length).flatMap used) := by
  obtain ⟨body, position, row⟩ := filed
  obtain ⟨rule, member, proper, numbers, _⟩ := (represents.joins _ _ _).mp row
  have count : bodies.length = rule.bodies.length := by
    rw [← numbers.length_bodies, ← names, List.length_map]
  refine ⟨rule.head, numbers.head, ?_⟩
  have named : ∀ position name, rule.bodies[position]? = some name →
      grammar.Derives graph name (Derivation.segmentsAt bodies position)
        (used position) := by
    intro position name nameFound
    obtain ⟨id, idFound, numbered⟩ := getElem?_of_map_some numbers.bodies nameFound
    rw [← names, List.getElem?_map] at idFound
    obtain ⟨body, bodyFound, rfl⟩ := Option.map_eq_some_iff.mp idFound
    obtain ⟨bodyName, bodyNumbered, bodyDerives⟩ := derived position body bodyFound
    have same := represents.coherent.id_injective _ _ _ numbered bodyNumbered
    rw [Derivation.segmentsAt_eq bodyFound]
    exact same ▸ bodyDerives
  have whole := Grammar.Derives.concatenate (Derivation.segmentsAt bodies) used
    member proper named (numbers.connects_iff.mp connects) follows
  rw [count]
  simpa using whole

/-- What the program of a grammar derives, the grammar derives. -/
theorem Problem.Derives.toGrammar (represents : program.Represents nonterminals grammar)
    {derivation : Derivation} {used : List Edge}
    (derives : Problem.Derives ⟨graph, program, .ofGraph graph⟩ derivation used) :
    ∃ name, nonterminals.id? name = some derivation.nonterminal ∧
      grammar.Derives graph name derivation.segments used := by
  induction derives with
  | @made bodies edge derivation used _ makes consistent induction =>
      have follows := isConsistent_iff_follows.mp consistent
      have single : ∀ body, bodies = [body] → ∀ name,
          nonterminals.id? name = some body.nonterminal →
          grammar.Derives graph name body.segments (used 0) := by
        rintro body rfl name numbered
        obtain ⟨bodyName, bodyNumbered, derived⟩ := induction 0 body (by simp)
        have same := represents.coherent.id_injective _ _ _ numbered bodyNumbered
        exact same ▸ derived
      cases makes with
      | basic edgeMember filed =>
          obtain ⟨rule, member, sameLabel, numbered⟩ := (represents.basic _ _).mp filed
          exact ⟨rule.head, numbered, .basic member edgeMember sameLabel.symm⟩
      | prepend filed found edgeMember =>
          obtain ⟨rule, member, bodyNumbered, headNumbered, sameLabel, sameIndex⟩ :=
            (represents.prepend _ _).mp filed
          have body := single _ rfl rule.body bodyNumbered
          rw [sameLabel] at edgeMember ⊢
          rw [sameIndex] at found follows ⊢
          refine ⟨rule.head, headNumbered, ?_⟩
          simpa using Grammar.Derives.prepend member body found edgeMember follows
      | append filed found edgeMember =>
          obtain ⟨rule, member, bodyNumbered, headNumbered, sameLabel, sameIndex⟩ :=
            (represents.append _ _).mp filed
          have body := single _ rfl rule.body bodyNumbered
          rw [sameLabel] at edgeMember ⊢
          rw [sameIndex] at found follows ⊢
          refine ⟨rule.head, headNumbered, ?_⟩
          simpa using Grammar.Derives.append member body found edgeMember follows
      | insert filed inside edgeMember label =>
          obtain ⟨rule, member, bodyNumbered, headNumbered, sameLabel, sameIndex⟩ :=
            (represents.insert _ _).mp filed
          have body := single _ rfl rule.body bodyNumbered
          rw [sameLabel] at label
          rw [sameIndex] at inside follows ⊢
          refine ⟨rule.head, headNumbered, ?_⟩
          simpa using Grammar.Derives.insert member body inside edgeMember label follows
      | @join join _ segments filed names connects =>
          simpa using derives_concatenation represents filed names connects follows induction

end Representation

end GrammarReach
