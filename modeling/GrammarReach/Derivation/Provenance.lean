import GrammarReach.Derivation.Table

/-!
# Provenance

For each derivation the edges and the earlier derivations that it was made from.
Going back from the derivations of some answers collects the edges that support
those answers.
-/

namespace GrammarReach

/-- A set of edges, listed in ascending order. -/
abbrev EdgeSet := Std.TreeSet Edge

/-- The edges and antecedents of derivations, and the derivation that each answer
was first found with. -/
structure Provenance where
  edges : Keyed DerivationId Edge := .empty
  antecedents : Keyed DerivationId DerivationId := .empty
  roots : Std.TreeMap Span DerivationId := ∅

namespace Provenance

def empty : Provenance := {}

instance : Inhabited Provenance := ⟨empty⟩

/-- Records that an edge contributes to a derivation. -/
def recordEdge (provenance : Provenance) (derivation : DerivationId) (edge : Edge) :
    Provenance :=
  { provenance with edges := provenance.edges.pushNew derivation edge }

/-- Records that a derivation was made from another one. -/
def recordAntecedent (provenance : Provenance) (derivation antecedent : DerivationId) :
    Provenance :=
  { provenance with antecedents := provenance.antecedents.pushNew derivation antecedent }

/-- Records the derivation of an answer, unless the answer has one. -/
def recordRoot (provenance : Provenance) (span : Span) (derivation : DerivationId) :
    Provenance :=
  { provenance with roots := provenance.roots.insertIfNew span derivation }

def root? (provenance : Provenance) (span : Span) : Option DerivationId :=
  provenance.roots[span]?

/-- Visits the derivations on the stack and their antecedents.  Each step takes
one derivation off the stack, and the antecedents of a derivation are put there
once, so their total number bounds the steps. -/
def visit (antecedents : Keyed DerivationId DerivationId) :
    Nat → List DerivationId → Std.TreeSet DerivationId → Std.TreeSet DerivationId
  | 0, _, visited => visited
  | _ + 1, [], visited => visited
  | bound + 1, id :: stack, visited =>
      if visited.contains id then
        visit antecedents bound stack visited
      else
        visit antecedents bound ((antecedents.row id).toList ++ stack) (visited.insert id)

/-- The derivations that the given answers go back to.  Answers that start where
they stop are left out. -/
def ancestors (provenance : Provenance) (targets : List Span) : Std.TreeSet DerivationId :=
  let roots := (targets.filter fun span => !span.isReflexive).filterMap provenance.root?
  visit provenance.antecedents (roots.length + provenance.antecedents.total + 1) roots ∅

/-- The recorded edges of some derivations, without epsilon edges. -/
def edgesOf (provenance : Provenance) (derivations : Std.TreeSet DerivationId) : EdgeSet :=
  derivations.foldl
    (fun found derivation =>
      (provenance.edges.row derivation).foldl
        (fun found edge => if edge.isEpsilon then found else found.insert edge) found)
    ∅

def supportingEdges (provenance : Provenance) (targets : List Span) : EdgeSet :=
  provenance.edgesOf (provenance.ancestors targets)

/-- The edges that support the given answers, and the records of the derivations
that these go back to. -/
def retainSupporting (provenance : Provenance) (targets : List Span) :
    EdgeSet × Provenance :=
  let visited := provenance.ancestors targets
  (provenance.edgesOf visited,
    { edges := provenance.edges.keep visited.contains
      antecedents := provenance.antecedents.keep visited.contains
      roots := provenance.roots.filter fun _ derivation => visited.contains derivation })

/-- The number of derivations with a recorded edge or antecedent. -/
def nodeCount (provenance : Provenance) : Nat :=
  (Std.TreeSet.ofList (provenance.edges.keys ++ provenance.antecedents.keys)).size

end Provenance

end GrammarReach
