import GrammarReach.Proofs.Graph.Indices
import GrammarReach.Proofs.Saturation.Combinations

/-!
# What the rules make of a derivation

The rules of a program make derivations of others and of edges.  The candidates
that a derivation sets off are exactly what the rules make of it together with
derivations of the table.
-/

namespace GrammarReach

namespace Program

/-- The join is filed under the body at some position. -/
def Uses (program : Program) (join : Join) : Prop :=
  ∃ body position, (join, position) ∈ program.joins.row body

/-- Every join of the program is filed under each of its bodies, and its links
are in scope. -/
structure WellFiled (program : Program) : Prop where
  filed : ∀ join body position, program.Uses join →
    ((join, position) ∈ program.joins.row body ↔ join.bodies[position]? = some body)
  inScope : ∀ join, program.Uses join → join.Scoped

theorem Represents.wellFiled {program : Program} {nonterminals : Nonterminals}
    {grammar : Grammar} (represents : program.Represents nonterminals grammar) :
    program.WellFiled := by
  constructor
  · rintro join body position ⟨usedBody, usedPosition, used⟩
    obtain ⟨rule, member, proper, numbers, _⟩ := (represents.joins _ _ _).mp used
    constructor
    · intro filed
      obtain ⟨_, _, _, _, found⟩ := (represents.joins _ _ _).mp filed
      exact found
    · intro found
      exact (represents.joins _ _ _).mpr ⟨rule, member, proper, numbers, found⟩
  · rintro join ⟨body, position, used⟩
    obtain ⟨rule, _, proper, numbers, _⟩ := (represents.joins _ _ _).mp used
    exact numbers.scoped proper

/-- The rules of a program make a derivation of other derivations and an edge. -/
inductive Makes (program : Program) (graph : Graph) :
    List Derivation → Option Edge → Derivation → Prop where
  | basic {edge : Edge} {head : NonterminalId} :
      edge ∈ graph.edges → head ∈ program.basic.row edge.label →
      Makes program graph [] (some edge) ⟨head, [⟨edge.source, edge.target⟩]⟩
  | prepend {body : Derivation} {step : UnaryStep} {span : Span} {source : Vertex} :
      step ∈ program.prepend.row body.nonterminal →
      body.segments[step.index]? = some span →
      ⟨source, span.start, step.label⟩ ∈ graph.edges →
      Makes program graph [body] (some ⟨source, span.start, step.label⟩)
        ⟨step.head, body.segments.set step.index ⟨source, span.stop⟩⟩
  | append {body : Derivation} {step : UnaryStep} {span : Span} {target : Vertex} :
      step ∈ program.append.row body.nonterminal →
      body.segments[step.index]? = some span →
      ⟨span.stop, target, step.label⟩ ∈ graph.edges →
      Makes program graph [body] (some ⟨span.stop, target, step.label⟩)
        ⟨step.head, body.segments.set step.index ⟨span.start, target⟩⟩
  | insert {body : Derivation} {step : UnaryStep} {edge : Edge} :
      step ∈ program.insert.row body.nonterminal →
      step.index ≤ body.segments.length →
      edge ∈ graph.edges → edge.label = step.label →
      Makes program graph [body] (some edge)
        ⟨step.head, body.segments.insertIdx step.index ⟨edge.source, edge.target⟩⟩
  | join {join : Join} {bodies : List Derivation} {segments : List Span} :
      program.Uses join → bodies.map Derivation.nonterminal = join.bodies →
      join.Connects (Derivation.segmentsAt bodies) segments →
      Makes program graph bodies none ⟨join.head, segments⟩

theorem Makes.edge_mem {program : Program} {graph : Graph} {bodies : List Derivation}
    {edge : Edge} {derivation : Derivation}
    (makes : program.Makes graph bodies (some edge) derivation) : edge ∈ graph.edges := by
  cases makes with
  | basic member _ => exact member
  | prepend _ _ member => exact member
  | append _ _ member => exact member
  | insert _ _ member _ => exact member

end Program

/-- Whatever a rule makes of derivations of the table is made by the candidate. -/
def Candidate.MadeIn (candidate : Candidate) (graph : Graph) (program : Program)
    (table : DerivationTable) : Prop :=
  ∃ bodies, table.Holds candidate.antecedents bodies ∧
    program.Makes graph bodies candidate.edge candidate.derivation

namespace Candidate

section Single

variable {graph : Graph} {program : Program} {table : DerivationTable}
  {id : DerivationId} {derivation : Derivation}

private theorem holds_singleton (place : table.derivation? id = some derivation) :
    table.Holds [id] [derivation] := by
  simp [DerivationTable.Holds, place]

private theorem mem_ofPrepends (indexed : graph.Indexed) {candidate : Candidate} :
    candidate ∈ ofPrepends graph program id derivation ↔
      ∃ step ∈ program.prepend.row derivation.nonterminal, ∃ span source,
        derivation.segments[step.index]? = some span ∧
        ⟨source, span.start, step.label⟩ ∈ graph.edges ∧
        candidate =
          ⟨⟨step.head, derivation.segments.set step.index ⟨source, span.stop⟩⟩,
            some ⟨source, span.start, step.label⟩, [id]⟩ := by
  rw [ofPrepends, List.mem_flatMap]
  refine exists_congr fun step => and_congr Array.mem_toList_iff ?_
  cases found : derivation.segments[step.index]? with
  | none => simp
  | some span => simp [indexed.mem_sources, eq_comm]

private theorem mem_ofAppends (indexed : graph.Indexed) {candidate : Candidate} :
    candidate ∈ ofAppends graph program id derivation ↔
      ∃ step ∈ program.append.row derivation.nonterminal, ∃ span target,
        derivation.segments[step.index]? = some span ∧
        ⟨span.stop, target, step.label⟩ ∈ graph.edges ∧
        candidate =
          ⟨⟨step.head, derivation.segments.set step.index ⟨span.start, target⟩⟩,
            some ⟨span.stop, target, step.label⟩, [id]⟩ := by
  rw [ofAppends, List.mem_flatMap]
  refine exists_congr fun step => and_congr Array.mem_toList_iff ?_
  cases found : derivation.segments[step.index]? with
  | none => simp
  | some span => simp [indexed.mem_targets, eq_comm]

private theorem mem_ofInsertions (indexed : graph.Indexed) {candidate : Candidate} :
    candidate ∈ ofInsertions graph program id derivation ↔
      ∃ step ∈ program.insert.row derivation.nonterminal, ∃ edge,
        step.index ≤ derivation.segments.length ∧
        edge ∈ graph.edges ∧ edge.label = step.label ∧
        candidate =
          ⟨⟨step.head, derivation.segments.insertIdx step.index
            ⟨edge.source, edge.target⟩⟩, some edge, [id]⟩ := by
  rw [ofInsertions, List.mem_flatMap]
  refine exists_congr fun step => and_congr Array.mem_toList_iff ?_
  by_cases short : derivation.segments.length < step.index
  · have outside : ¬ step.index ≤ derivation.segments.length := Nat.not_le.mpr short
    simp [short, outside]
  · have inside : step.index ≤ derivation.segments.length := Nat.le_of_not_lt short
    simp [short, inside, indexed.mem_edgesLabelled, and_assoc, eq_comm]

private theorem mem_ofJoins {candidate : Candidate} :
    candidate ∈ ofJoins program table id derivation ↔
      ∃ join position, (join, position) ∈ program.joins.row derivation.nonterminal ∧
        ∃ ids ∈ join.combinations table position id derivation,
          join.assemble? table ids = some candidate := by
  rw [ofJoins, List.mem_flatMap, Prod.exists]
  simp only [Array.mem_toList_iff, List.mem_filterMap]

end Single

section All

variable {graph : Graph} {program : Program} {table : DerivationTable}
  {id : DerivationId} {derivation : Derivation}

/-- Every candidate is made by a rule of derivations of the table. -/
theorem madeIn_of_mem_all (indexed : graph.Indexed) (wellFiled : program.WellFiled)
    (coherent : table.Coherent) (place : table.derivation? id = some derivation)
    {candidate : Candidate}
    (member : candidate ∈ all graph program table id derivation) :
    candidate.MadeIn graph program table := by
  simp only [all, List.mem_append] at member
  rcases member with ((prepended | appended) | inserted) | joined
  · obtain ⟨step, filed, span, source, segment, edge, rfl⟩ :=
      (mem_ofPrepends indexed).mp prepended
    exact ⟨[derivation], holds_singleton place, .prepend filed segment edge⟩
  · obtain ⟨step, filed, span, target, segment, edge, rfl⟩ :=
      (mem_ofAppends indexed).mp appended
    exact ⟨[derivation], holds_singleton place, .append filed segment edge⟩
  · obtain ⟨step, filed, edge, inside, edgeMember, label, rfl⟩ :=
      (mem_ofInsertions indexed).mp inserted
    exact ⟨[derivation], holds_singleton place, .insert filed inside edgeMember label⟩
  · obtain ⟨join, position, filed, ids, combination, assembled⟩ := mem_ofJoins.mp joined
    have used : program.Uses join := ⟨_, _, filed⟩
    obtain ⟨bodies, holds, names, arities, linked⟩ := Join.combinations_sound coherent
      place ((wellFiled.filed _ _ _ used).mp filed) combination
    rw [Join.assemble?_eq holds] at assembled
    obtain ⟨segments, chained, rfl⟩ := Option.map_eq_some_iff.mp assembled
    exact ⟨bodies, holds, .join used names ⟨arities, linked, chained⟩⟩

private theorem eq_of_holds_singleton (place : table.derivation? id = some derivation)
    {ids : List DerivationId} {body : Derivation} (holds : table.Holds ids [body])
    (member : id ∈ ids) : ids = [id] ∧ body = derivation := by
  obtain ⟨only, rfl⟩ := List.length_eq_one_iff.mp holds.length_eq
  rw [List.mem_singleton] at member
  subst member
  refine ⟨rfl, ?_⟩
  simp only [DerivationTable.Holds, List.map_cons, List.map_nil, List.cons.injEq] at holds
  rw [place] at holds
  exact (Option.some.inj holds.1).symm

/-- Whatever a rule makes of derivations of the table is a candidate of each of
them. -/
theorem mem_all (indexed : graph.Indexed) (wellFiled : program.WellFiled)
    (coherent : table.Coherent) (place : table.derivation? id = some derivation)
    {ids : List DerivationId} {bodies : List Derivation} {edge : Option Edge}
    {made : Derivation} (holds : table.Holds ids bodies)
    (makes : program.Makes graph bodies edge made) (member : id ∈ ids) :
    ⟨made, edge, ids⟩ ∈ all graph program table id derivation := by
  simp only [all, List.mem_append]
  cases makes with
  | basic _ _ =>
      have length := holds.length_eq
      rw [List.length_nil, List.length_eq_zero_iff] at length
      rw [length] at member
      simp at member
  | prepend filed segment edgeMember =>
      obtain ⟨rfl, rfl⟩ := eq_of_holds_singleton place holds member
      exact Or.inl (Or.inl (Or.inl ((mem_ofPrepends indexed).mpr
        ⟨_, filed, _, _, segment, edgeMember, rfl⟩)))
  | append filed segment edgeMember =>
      obtain ⟨rfl, rfl⟩ := eq_of_holds_singleton place holds member
      exact Or.inl (Or.inl (Or.inr ((mem_ofAppends indexed).mpr
        ⟨_, filed, _, _, segment, edgeMember, rfl⟩)))
  | insert filed inside edgeMember label =>
      obtain ⟨rfl, rfl⟩ := eq_of_holds_singleton place holds member
      exact Or.inl (Or.inr ((mem_ofInsertions indexed).mpr
        ⟨_, filed, _, inside, edgeMember, label, rfl⟩))
  | @join join _ segments used names connects =>
      obtain ⟨position, found⟩ := List.mem_iff_getElem?.mp member
      obtain ⟨body, bodyFound, bodyPlace⟩ := holds.of_id found
      rw [place] at bodyPlace
      cases bodyPlace
      have bodyName : join.bodies[position]? = some derivation.nonterminal := by
        rw [← names, List.getElem?_map, bodyFound]
        rfl
      refine Or.inr (mem_ofJoins.mpr ⟨join, position,
        (wellFiled.filed _ _ _ used).mpr bodyName, ids,
        Join.mem_combinations coherent holds (wellFiled.inScope join used) names connects
          found place, ?_⟩)
      rw [Join.assemble?_eq holds, connects.chained]
      rfl

end All

end Candidate

end GrammarReach
