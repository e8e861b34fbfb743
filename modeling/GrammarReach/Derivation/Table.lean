import GrammarReach.Graph.Basic

/-!
# Tables of derivations

A derivation is a nonterminal with the segments that it spans.  A table keeps
each derivation once, in the order of acceptance, and finds derivations by
nonterminal and by the vertices at which their segments start and stop.
-/

namespace GrammarReach

/-- The number that stands for a nonterminal. -/
abbrev NonterminalId := Nat

/-- The place of a derivation in its table. -/
abbrev DerivationId := Nat

/-- Nonterminals and the numbers that stand for them, in the order in which they
were first mentioned. -/
structure Nonterminals where
  names : Array Nonterminal := #[]
  ids : Std.TreeMap Nonterminal NonterminalId := ∅

namespace Nonterminals

def empty : Nonterminals := {}

def size (nonterminals : Nonterminals) : Nat :=
  nonterminals.names.size

/-- The number of a nonterminal that was mentioned. -/
def id? (nonterminals : Nonterminals) (name : Nonterminal) : Option NonterminalId :=
  nonterminals.ids[name]?

def intern (nonterminals : Nonterminals) (name : Nonterminal) :
    NonterminalId × Nonterminals :=
  match nonterminals.id? name with
  | some id => (id, nonterminals)
  | none =>
      (nonterminals.size,
        { names := nonterminals.names.push name
          ids := nonterminals.ids.insert name nonterminals.size })

/-- Mentions nonterminals from left to right and returns their numbers. -/
def internAll (nonterminals : Nonterminals) :
    List Nonterminal → List NonterminalId × Nonterminals
  | [] => ([], nonterminals)
  | name :: rest =>
      let (id, nonterminals) := nonterminals.intern name
      let (ids, nonterminals) := nonterminals.internAll rest
      (id :: ids, nonterminals)

/-- The nonterminal with a number, or a question mark. -/
def name (nonterminals : Nonterminals) (id : NonterminalId) : Nonterminal :=
  (nonterminals.names[id]?).getD "?"

end Nonterminals

/-- A nonterminal with the segments that it spans. -/
structure Derivation where
  nonterminal : NonterminalId
  segments : List Span
deriving DecidableEq, Repr

namespace Derivation

def order : Derivation → Derivation → Ordering :=
  compareLex (compareOn Derivation.nonterminal) (compareOn Derivation.segments)

instance : Ord Derivation := ⟨order⟩

instance : Std.TransOrd Derivation :=
  inferInstanceAs (Std.TransCmp
    (compareLex (compareOn Derivation.nonterminal) (compareOn Derivation.segments)))

instance : Std.LawfulEqOrd Derivation where
  eq_of_compare {left right} same := by
    obtain ⟨leftNonterminal, leftSegments⟩ := left
    obtain ⟨rightNonterminal, rightSegments⟩ := right
    have fields := Ordering.then_eq_eq.mp same
    have sameNonterminal : leftNonterminal = rightNonterminal :=
      Std.LawfulEqOrd.eq_of_compare fields.1
    have sameSegments : leftSegments = rightSegments :=
      Std.LawfulEqOrd.eq_of_compare fields.2
    subst sameNonterminal sameSegments
    rfl

def dimension (derivation : Derivation) : Nat :=
  derivation.segments.length

end Derivation

/-- One of the two ends of a segment. -/
inductive Side where
  | start
  | stop
deriving DecidableEq, Repr

/-- The vertex at an end of a span. -/
def Span.at (span : Span) : Side → Vertex
  | .start => span.start
  | .stop => span.stop

/-- The end of one segment of the derivations of a nonterminal, at a vertex. -/
structure Boundary where
  nonterminal : NonterminalId
  segment : Nat
  side : Side
  vertex : Vertex
deriving DecidableEq, Repr

namespace Boundary

def code (boundary : Boundary) : List Nat :=
  [boundary.nonterminal, boundary.segment,
    match boundary.side with | .start => 0 | .stop => 1, boundary.vertex]

/-- Boundaries are ordered by their codes. -/
instance : Ord Boundary := ⟨compareOn code⟩

instance : Std.TransOrd Boundary :=
  inferInstanceAs (Std.TransCmp (compareOn code))

instance : Std.LawfulEqOrd Boundary where
  eq_of_compare {left right} same := by
    have codes : left.code = right.code := Std.LawfulEqOrd.eq_of_compare same
    obtain ⟨leftNonterminal, leftSegment, leftSide, leftVertex⟩ := left
    obtain ⟨rightNonterminal, rightSegment, rightSide, rightVertex⟩ := right
    cases leftSide <;> cases rightSide <;> simp_all [code]

end Boundary

/-- The accepted derivations in the order of acceptance. -/
structure DerivationTable where
  nonterminals : Nonterminals := .empty
  derivations : Array Derivation := #[]
  places : Std.TreeMap Derivation DerivationId := ∅
  byNonterminal : Keyed NonterminalId DerivationId := .empty
  byBoundary : Keyed Boundary DerivationId := .empty

namespace DerivationTable

def ofNonterminals (nonterminals : Nonterminals) : DerivationTable :=
  { nonterminals }

instance : Inhabited DerivationTable := ⟨{}⟩

def size (table : DerivationTable) : Nat :=
  table.derivations.size

def derivation? (table : DerivationTable) (id : DerivationId) : Option Derivation :=
  table.derivations[id]?

/-- The boundaries of a derivation, segment by segment. -/
def boundariesOf (derivation : Derivation) : List Boundary :=
  derivation.segments.zipIdx.flatMap fun (span, segment) =>
    [⟨derivation.nonterminal, segment, .start, span.start⟩,
      ⟨derivation.nonterminal, segment, .stop, span.stop⟩]

/-- Accepts a derivation unless it was accepted before; returns its place and
whether it is new. -/
def insert (table : DerivationTable) (derivation : Derivation) :
    DerivationId × Bool × DerivationTable :=
  match table.places[derivation]? with
  | some id => (id, false, table)
  | none =>
      let id := table.size
      (id, true,
        { nonterminals := table.nonterminals
          derivations := table.derivations.push derivation
          places := table.places.insert derivation id
          byNonterminal := table.byNonterminal.push derivation.nonterminal id
          byBoundary := (boundariesOf derivation).foldl
            (fun index boundary => index.push boundary id) table.byBoundary })

/-- The derivations with a boundary, in the order of acceptance. -/
def atBoundary (table : DerivationTable) (boundary : Boundary) : Array DerivationId :=
  table.byBoundary.row boundary

/-- The derivations of a nonterminal, in the order of acceptance. -/
def ofNonterminal (table : DerivationTable) (nonterminal : NonterminalId) :
    Array DerivationId :=
  table.byNonterminal.row nonterminal

/-- The segments derived for a nonterminal, in the order of acceptance. -/
def segmentsOf (table : DerivationTable) (name : Nonterminal) : List (List Span) :=
  match table.nonterminals.id? name with
  | none => []
  | some nonterminal =>
      ((table.ofNonterminal nonterminal).toList.filterMap table.derivation?).map
        Derivation.segments

def derivationText (table : DerivationTable) (derivation : Derivation) : String :=
  table.nonterminals.name derivation.nonterminal ++ "(" ++
    ", ".intercalate (derivation.segments.map Span.text) ++ ")"

def textLines (table : DerivationTable) : List String :=
  table.derivations.toList.map table.derivationText

def text (table : DerivationTable) : String :=
  String.join (table.textLines.map (· ++ "\n"))

end DerivationTable

end GrammarReach
