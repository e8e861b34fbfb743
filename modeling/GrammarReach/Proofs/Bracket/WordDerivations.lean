import GrammarReach.Proofs.Bracket.WordRules

/-!
# Deriving matched words

A grammar that gives every word a name, and has the rules that build names along
the structure of matched words, derives the span of every walk whose word is
matched.  The derivation uses every edge of the walk.
-/

namespace GrammarReach

namespace BracketLanguage

/-- The grammar has the rules that derive matched words over the allowed labels,
each for the name that the word is given. -/
structure DerivesMatched (grammar : Grammar) (family : BracketFamily)
    (allowed : Label → Prop) (nameOf : List Label → Nonterminal) : Prop where
  empty : (⟨nameOf [], Grammar.epsilon⟩ : BasicRule) ∈ grammar.basic
  letter : ∀ label, allowed label → family.owns label = false →
    (⟨nameOf [label], label⟩ : BasicRule) ∈ grammar.basic
  sequence : ∀ left right, (∀ label ∈ left ++ right, allowed label) →
    sequenceRule (nameOf (left ++ right)) (nameOf left) (nameOf right) ∈
      grammar.concatenate
  wrap : ∀ id inner, allowed (family.openLabel id) → (∀ label ∈ inner, allowed label) →
    wrapRule (nameOf (family.openLabel id :: (inner ++ [family.closeLabel id])))
      (nameOf inner) family ∈ grammar.concatenate
  opener : ∀ id, allowed (family.openLabel id) → openerRule family id ∈ grammar.basic
  pair : ∀ id, allowed (family.openLabel id) → pairRule family id ∈ grammar.insert

/-- The span of a path is derived with every edge of the path. -/
def DerivesPath (grammar : Grammar) (graph : Graph) (name : Nonterminal)
    (start stop : Vertex) (path : List Edge) : Prop :=
  ∃ used, grammar.Derives graph name [⟨start, stop⟩] used ∧ ∀ edge ∈ path, edge ∈ used

section Paths

variable {grammar : Grammar} {graph : Graph} {name left right inner : Nonterminal}

theorem DerivesPath.sequence {start middle stop : Vertex} {before behind : List Edge}
    (member : sequenceRule name left right ∈ grammar.concatenate)
    (first : DerivesPath grammar graph left start middle before)
    (second : DerivesPath grammar graph right middle stop behind) :
    DerivesPath grammar graph name start stop (before ++ behind) := by
  obtain ⟨firstUsed, firstDerives, firstCovers⟩ := first
  obtain ⟨secondUsed, secondDerives, secondCovers⟩ := second
  refine ⟨_, derives_sequence member firstDerives secondDerives, fun edge inPath => ?_⟩
  exact List.mem_append.mpr
    ((List.mem_append.mp inPath).imp (firstCovers edge) (secondCovers edge))

theorem DerivesPath.wrap {family : BracketFamily} {id : Nat} {opened closed : Edge}
    {path : List Edge} (member : wrapRule name inner family ∈ grammar.concatenate)
    (opener : openerRule family id ∈ grammar.basic) (pair : pairRule family id ∈ grammar.insert)
    (openedMember : opened ∈ graph.edges) (closedMember : closed ∈ graph.edges)
    (openedLabel : opened.label = family.openLabel id)
    (closedLabel : closed.label = family.closeLabel id)
    (reaches : (Components.ofGraph graph).reaches opened.target closed.source = true)
    (derivesInner : DerivesPath grammar graph inner opened.target closed.source path) :
    DerivesPath grammar graph name opened.source closed.target (opened :: (path ++ [closed])) := by
  obtain ⟨used, derives, covers⟩ := derivesInner
  refine ⟨_, derives_wrap member opener pair openedMember closedMember openedLabel closedLabel
    reaches derives, fun edge inPath => ?_⟩
  simp only [List.mem_cons, List.mem_append, List.not_mem_nil, or_false] at inPath ⊢
  rcases inPath with rfl | inner | rfl
  · simp
  · simp [covers edge inner]
  · simp

end Paths

private theorem derivesPath_of_matched {graph : Graph} (built : graph.Built) {grammar : Grammar}
    {family : BracketFamily} {allowed : Label → Prop} {nameOf : List Label → Nonterminal}
    (rules : DerivesMatched grammar family allowed nameOf) {word : List Label}
    (matched : family.Matched word) :
    ∀ {start stop : Vertex} (path : List Edge), wordOf path = word →
      Joins start path stop → (∀ edge ∈ path, edge ∈ graph.edges) →
      start ∈ graph.vertices → (∀ label ∈ word, allowed label) →
      DerivesPath grammar graph (nameOf word) start stop path := by
  induction matched with
  | nil =>
      intro start stop path spelled joins _ member _
      rw [wordOf, List.map_eq_nil_iff] at spelled
      subst spelled
      cases joins
      have loop := built.closed.loop_mem start member
      exact ⟨_, .basic rules.empty loop rfl, by simp⟩
  | @pass label rest foreign _ induction =>
      intro start stop path spelled joins inside _ allAllowed
      obtain ⟨edge, path, rfl, rfl, rfl⟩ := List.map_eq_cons_iff.mp spelled
      obtain ⟨rfl, restJoins⟩ := joins
      have edgeMember := inside edge (by simp)
      have letter : DerivesPath grammar graph (nameOf [edge.label]) edge.source edge.target
          [edge] :=
        ⟨_, .basic (rules.letter edge.label (allAllowed _ (by simp)) foreign) edgeMember rfl,
          by simp⟩
      have derives := induction path rfl restJoins
        (fun other member => inside other (by simp [member]))
        (built.closed.target_mem edge edgeMember)
        (fun other member => allAllowed other (by simp [member]))
      exact letter.sequence (rules.sequence [edge.label] _ allAllowed) derives
  | @wrap id inner rest _ _ _ innerInduction restInduction =>
      intro start stop path spelled joins inside _ allAllowed
      obtain ⟨opened, path, rfl, openedLabel, spelledTail⟩ := List.map_eq_cons_iff.mp spelled
      obtain ⟨innerPath, tail, rfl, innerSpelled, spelledRest⟩ :=
        List.map_eq_append_iff.mp spelledTail
      obtain ⟨closed, restPath, rfl, closedLabel, restSpelled⟩ :=
        List.map_eq_cons_iff.mp spelledRest
      obtain ⟨rfl, tailJoins⟩ := joins
      obtain ⟨middle, innerJoins, rfl, restJoins⟩ := Joins.append_iff.mp tailJoins
      have openedMember := inside opened (by simp)
      have closedMember := inside closed (by simp)
      have innerInside : ∀ edge ∈ innerPath, edge ∈ graph.edges :=
        fun edge member => inside edge (by simp [member])
      have innerStart := built.closed.target_mem opened openedMember
      have isAllowed := allAllowed (family.openLabel id) (by simp)
      have innerAllowed : ∀ label ∈ inner, allowed label :=
        fun label member => allAllowed label (by simp [member])
      have innerDerives :=
        innerInduction innerPath innerSpelled innerJoins innerInside innerStart innerAllowed
      have restDerives := restInduction restPath restSpelled restJoins
        (fun edge member => inside edge (by simp [member]))
        (built.closed.target_mem closed closedMember)
        (fun label member => allAllowed label (by simp [member]))
      have reaches := Components.reaches_of_joins built innerJoins innerInside innerStart
      have wrapped := innerDerives.wrap (rules.wrap id inner isAllowed innerAllowed)
        (rules.opener id isAllowed) (rules.pair id isAllowed) openedMember closedMember
        openedLabel closedLabel reaches
      have regroup : family.openLabel id :: (inner ++ family.closeLabel id :: rest) =
          (family.openLabel id :: (inner ++ [family.closeLabel id])) ++ rest := by
        simp
      rw [regroup] at allAllowed ⊢
      simpa using wrapped.sequence (rules.sequence _ rest allAllowed) restDerives

/-- The span of a walk with a matched word is derived for the name of the word,
with every edge of the walk. -/
theorem derives_of_matched {graph : Graph} (built : graph.Built) {grammar : Grammar}
    {family : BracketFamily} {allowed : Label → Prop} {nameOf : List Label → Nonterminal}
    (rules : DerivesMatched grammar family allowed nameOf) {start stop : Vertex}
    {path : List Edge} (matched : family.Matched (wordOf path)) (joins : Joins start path stop)
    (inside : ∀ edge ∈ path, edge ∈ graph.edges) (member : start ∈ graph.vertices)
    (allAllowed : ∀ label ∈ wordOf path, allowed label) :
    ∃ used, grammar.Derives graph (nameOf (wordOf path)) [⟨start, stop⟩] used ∧
      ∀ edge ∈ path, edge ∈ used :=
  derivesPath_of_matched built rules matched path rfl joins inside member allAllowed

end BracketLanguage

end GrammarReach
