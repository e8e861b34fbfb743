import GrammarReach.Proofs.Bracket.ComponentGraphs
import GrammarReach.Proofs.Graph.Rearrangements

/-!
# The brackets of rearranged graphs

A bracket counts as matched when the canonical label of its partner was met before.  When
all brackets are spelled canonically this does not depend on the order of the edges, so both
reductions of rearranged graphs keep the same edges and know the same ids.
-/

namespace GrammarReach

/-- Every label that is read as a bracket is spelled canonically. -/
def CanonicalBrackets (edges : List Edge) : Prop :=
  ∀ edge ∈ edges, ∀ family : BracketFamily, family.owns edge.label = true →
    CanonicalLabel edge.label

theorem CanonicalBrackets.mono {edges others : List Edge} (canonical : CanonicalBrackets edges)
    (sub : ∀ edge ∈ others, edge ∈ edges) : CanonicalBrackets others :=
  fun edge member => canonical edge (sub edge member)

namespace Graph

theorem mem_partneredBrackets_of_canonical {graph : Graph}
    (canonical : CanonicalBrackets graph.labelledEdges) {family : BracketFamily} {id : Nat} :
    (family, id) ∈ graph.partneredBrackets ↔ id < Text.halfWordBound ∧
      family.openLabel id ∈ wordOf graph.labelledEdges ∧
      family.closeLabel id ∈ wordOf graph.labelledEdges := by
  constructor
  · intro member
    have paired := mem_partneredBrackets_iff.mp member
    have below : id < Text.halfWordBound := paired.bounded
    obtain ⟨label, partner, brackets, partners, inWord⟩ := paired
    have labelIn : label ∈ wordOf graph.labelledEdges := inWord.subset (.tail _ (.head _))
    have partnerIn : partner.text ∈ wordOf graph.labelledEdges := inWord.subset (.head _)
    obtain ⟨edge, inGraph, rfl⟩ := List.mem_map.mp labelIn
    have spelled := canonical edge inGraph family (by simp [BracketFamily.owns, brackets])
    refine ⟨below, ?_⟩
    generalize edge.label = label at *
    cases spelled with
    | normal => simp [BracketLabel.bracket?] at brackets
    | @opening owner other small =>
        rw [BracketLabel.read_openLabel owner small] at brackets partners
        cases brackets
        cases partners
        exact ⟨labelIn, partnerIn⟩
    | @closing owner other small =>
        rw [BracketLabel.read_closeLabel owner small] at brackets partners
        cases brackets
        cases partners
        exact ⟨partnerIn, labelIn⟩
  · rintro ⟨below, opened, closed⟩
    exact mem_partneredBrackets below opened closed

namespace Rearranges

variable {graph other : Graph} (rearranges : graph.Rearranges other)

include rearranges

private theorem mem_wordOf {label : Label} :
    label ∈ wordOf graph.labelledEdges ↔ label ∈ wordOf other.labelledEdges :=
  (rearranges.labelledEdges.map Edge.label).mem_iff

theorem canonicalBrackets (canonical : CanonicalBrackets graph.labelledEdges) :
    CanonicalBrackets other.labelledEdges :=
  canonical.mono fun _ => rearranges.mem_labelledEdges.mpr

theorem matchedBrackets_of_partners (same : ∀ bracket,
    bracket ∈ graph.partneredBrackets ↔ bracket ∈ other.partneredBrackets) :
    graph.matchedBrackets.graph.Rearranges other.matchedBrackets.graph := by
  have keeps : keepsLabel graph.partneredBrackets = keepsLabel other.partneredBrackets := by
    funext label
    unfold keepsLabel
    simp only [List.contains_eq_mem, same]
  unfold Graph.matchedBrackets
  simp only [keeps]
  exact rearranges.filter _

theorem matchedBrackets (canonical : CanonicalBrackets graph.labelledEdges) :
    graph.matchedBrackets.graph.Rearranges other.matchedBrackets.graph := by
  refine rearranges.matchedBrackets_of_partners ?_
  rintro ⟨family, id⟩
  rw [mem_partneredBrackets_of_canonical canonical,
    mem_partneredBrackets_of_canonical (rearranges.canonicalBrackets canonical),
    rearranges.mem_wordOf, rearranges.mem_wordOf]

theorem allBrackets : graph.allBrackets.graph.Rearranges other.allBrackets.graph :=
  rearranges.filter _

theorem mem_ids_allBrackets {family : BracketFamily} {id : Nat} :
    id ∈ graph.allBrackets.ids.ofFamily family ↔ id ∈ other.allBrackets.ids.ofFamily family := by
  unfold Graph.allBrackets
  simp only [BracketIds.mem_ofBrackets, mem_occurringBrackets, rearranges.mem_edges]

end Rearranges

end Graph

end GrammarReach
