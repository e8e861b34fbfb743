import GrammarReach.Graph.Components
import GrammarReach.Saturation.Program

/-!
# Candidates

What the rules make of one derivation and the table that it stands in.  A
candidate carries the edge and the derivations that it was made from.  A
concatenation is completed body by body, and each body is looked up at the
boundary that a link to a bound body asks for.
-/

namespace GrammarReach

/-- A derivation proposed by a rule, with what it was made from. -/
structure Candidate where
  derivation : Derivation
  edge : Option Edge := none
  antecedents : List DerivationId := []
deriving DecidableEq, Repr

namespace Candidate

/-- The candidates of the steps that put an edge before a segment. -/
def ofPrepends (graph : Graph) (program : Program) (id : DerivationId)
    (derivation : Derivation) : List Candidate :=
  (program.prepend.row derivation.nonterminal).toList.flatMap fun step =>
    match derivation.segments[step.index]? with
    | none => []
    | some span =>
        (graph.sources (.at span.start) step.label).toList.map fun source =>
          { derivation :=
              ⟨step.head, derivation.segments.set step.index ⟨source, span.stop⟩⟩
            edge := some ⟨source, span.start, step.label⟩
            antecedents := [id] }

/-- The candidates of the steps that put an edge after a segment. -/
def ofAppends (graph : Graph) (program : Program) (id : DerivationId)
    (derivation : Derivation) : List Candidate :=
  (program.append.row derivation.nonterminal).toList.flatMap fun step =>
    match derivation.segments[step.index]? with
    | none => []
    | some span =>
        (graph.targets (.at span.stop) step.label).toList.map fun target =>
          { derivation :=
              ⟨step.head, derivation.segments.set step.index ⟨span.start, target⟩⟩
            edge := some ⟨span.stop, target, step.label⟩
            antecedents := [id] }

/-- The candidates of the steps that insert an edge as a segment. -/
def ofInsertions (graph : Graph) (program : Program) (id : DerivationId)
    (derivation : Derivation) : List Candidate :=
  (program.insert.row derivation.nonterminal).toList.flatMap fun step =>
    if derivation.segments.length < step.index then
      []
    else
      (graph.edgesLabelled step.label).toList.map fun edge =>
        { derivation :=
            ⟨step.head, derivation.segments.insertIdx step.index ⟨edge.source, edge.target⟩⟩
          edge := some edge
          antecedents := [id] }

end Candidate

/-- The derivations bound to the body positions of a concatenation. -/
abbrev Binding := List (Option DerivationId)

namespace Binding

def at? (binding : Binding) (position : Nat) : Option DerivationId :=
  (binding[position]?).join

/-- The segment that a reference names, when its body is bound and has it. -/
def segment? (table : DerivationTable) (binding : Binding) (reference : SegmentRef) :
    Option Span := do
  let id ← binding.at? reference.body
  let derivation ← table.derivation? id
  derivation.segments[reference.segment]?

end Binding

namespace Join

/-- The number of segments that the join refers to at a position. -/
def arityAt (join : Join) (position : Nat) : Nat :=
  join.arities.getD position 0

/-- Every link of which both ends are bound meets at a vertex. -/
def linksHold (table : DerivationTable) (join : Join) (binding : Binding) : Bool :=
  join.links.all fun (left, right) =>
    match binding.segment? table left, binding.segment? table right with
    | some leftSpan, some rightSpan => leftSpan.stop == rightSpan.start
    | _, _ => true

/-- The boundary at which a link to a bound body asks for the derivation at
`position`. -/
def demand? (table : DerivationTable) (binding : Binding) (position : Nat)
    (body : NonterminalId) (link : SegmentRef × SegmentRef) : Option Boundary :=
  let (left, right) := link
  if left.body = position ∧ right.body ≠ position ∧ (binding.at? right.body).isSome then
    (binding.segment? table right).map fun span =>
      ⟨body, left.segment, .stop, span.start⟩
  else if right.body = position ∧ left.body ≠ position ∧ (binding.at? left.body).isSome then
    (binding.segment? table left).map fun span =>
      ⟨body, right.segment, .start, span.stop⟩
  else
    none

/-- The first of the shortest rows, if there is a row. -/
def shortest? : List (Array DerivationId) → Option (Array DerivationId)
  | [] => none
  | first :: others =>
      some (others.foldl (fun best row => if row.size < best.size then row else best) first)

/-- The derivations to try at a position: those at the boundary with the fewest
derivations, or all of the nonterminal when no link asks for a boundary. -/
def choices (table : DerivationTable) (join : Join) (binding : Binding) (position : Nat)
    (body : NonterminalId) : Array DerivationId :=
  let rows := (join.links.filterMap (demand? table binding position body)).map
    table.atBoundary
  (shortest? rows).getD (table.ofNonterminal body)

/-- The derivation at a place has the segments that the join refers to. -/
def fits (table : DerivationTable) (join : Join) (position : Nat) (id : DerivationId) :
    Bool :=
  match table.derivation? id with
  | some derivation => join.arityAt position ≤ derivation.dimension
  | none => false

/-- Binds the given positions from left to right in every way that keeps the
links. -/
def complete (table : DerivationTable) (join : Join) :
    List (NonterminalId × Nat) → Binding → List (List DerivationId)
  | [], binding => [binding.filterMap id]
  | (body, position) :: rest, binding =>
      if (binding.at? position).isSome then
        complete table join rest binding
      else
        (join.choices table binding position body).toList.flatMap fun id =>
          if join.fits table position id then
            let extended := binding.set position (some id)
            if join.linksHold table extended then
              complete table join rest extended
            else []
          else []

/-- All ways to bind the bodies of a join with the given derivation at the given
position. -/
def combinations (table : DerivationTable) (join : Join) (position : Nat)
    (id : DerivationId) (derivation : Derivation) : List (List DerivationId) :=
  if derivation.dimension < join.arityAt position then
    []
  else
    let binding : Binding := (List.replicate join.bodies.length none).set position (some id)
    if join.linksHold table binding then
      join.complete table join.bodies.zipIdx binding
    else
      []

/-- The span of a chain: from the start of its first segment to the stop of its
last one. -/
def chainSpan? (table : DerivationTable) (binding : Binding) (chain : List SegmentRef) :
    Option Span := do
  let first ← chain.head?
  let last ← chain.getLast?
  let firstSpan ← binding.segment? table first
  let lastSpan ← binding.segment? table last
  return ⟨firstSpan.start, lastSpan.stop⟩

/-- The candidate that a join makes of derivations for its bodies. -/
def assemble? (table : DerivationTable) (join : Join) (combination : List DerivationId) :
    Option Candidate :=
  (join.wiring.mapM (chainSpan? table (combination.map some))).map fun segments =>
    { derivation := ⟨join.head, segments⟩
      antecedents := combination }

end Join

/-- The candidates of the joins in which a derivation can be a body. -/
def Candidate.ofJoins (program : Program) (table : DerivationTable) (id : DerivationId)
    (derivation : Derivation) : List Candidate :=
  (program.joins.row derivation.nonterminal).toList.flatMap fun (join, position) =>
    (join.combinations table position id derivation).filterMap (join.assemble? table)

/-- All candidates that a derivation sets off, rule shape by rule shape. -/
def Candidate.all (graph : Graph) (program : Program) (table : DerivationTable)
    (id : DerivationId) (derivation : Derivation) : List Candidate :=
  ofPrepends graph program id derivation ++ ofAppends graph program id derivation ++
    ofInsertions graph program id derivation ++ ofJoins program table id derivation

end GrammarReach
