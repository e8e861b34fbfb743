import GrammarReach.Proofs.Container.Rows
import GrammarReach.Saturation.Program
import Mathlib.Data.List.Forall2

/-!
# What a program files

Preparing a grammar numbers its nonterminals one-to-one and files every rule
under each of its bodies.  A number once given to a nonterminal is never changed,
so all rows are described with the final numbers.
-/

namespace GrammarReach

/-! ## Numbers of nonterminals -/

namespace Nonterminals

/-- The number of a nonterminal is its place among the names. -/
def Coherent (nonterminals : Nonterminals) : Prop :=
  ∀ name id, nonterminals.id? name = some id → nonterminals.names[id]? = some name

section Coherent

variable {nonterminals : Nonterminals}

theorem Coherent.id_lt (coherent : nonterminals.Coherent) (name : Nonterminal)
    (id : NonterminalId) (found : nonterminals.id? name = some id) :
    id < nonterminals.size :=
  (Array.getElem?_eq_some_iff.mp (coherent name id found)).1

theorem Coherent.id_injective (coherent : nonterminals.Coherent)
    (left right : Nonterminal) (id : NonterminalId)
    (leftFound : nonterminals.id? left = some id)
    (rightFound : nonterminals.id? right = some id) : left = right := by
  have leftName := coherent left id leftFound
  rw [coherent right id rightFound] at leftName
  exact (Option.some.inj leftName).symm

theorem Coherent.name_of_id? (coherent : nonterminals.Coherent) {name : Nonterminal}
    {id : NonterminalId} (found : nonterminals.id? name = some id) :
    nonterminals.name id = name := by
  rw [Nonterminals.name, coherent name id found, Option.getD_some]

end Coherent

/-- The later nonterminals have all numbers of the earlier ones. -/
def Extends (earlier later : Nonterminals) : Prop :=
  ∀ name id, earlier.id? name = some id → later.id? name = some id

theorem Extends.refl (nonterminals : Nonterminals) : nonterminals.Extends nonterminals :=
  fun _ _ found => found

theorem Extends.trans {first second third : Nonterminals}
    (before : first.Extends second) (behind : second.Extends third) :
    first.Extends third :=
  fun name id found => behind name id (before name id found)

theorem coherent_empty : empty.Coherent := by
  intro name id found
  simp [empty, id?] at found

section Intern

variable (nonterminals : Nonterminals) (name : Nonterminal)

private theorem id?_intern_iff (new : nonterminals.id? name = none)
    (other : Nonterminal) (id : NonterminalId) :
    (nonterminals.intern name).2.id? other = some id ↔
      nonterminals.id? other = some id ∨ (other = name ∧ id = nonterminals.size) := by
  simp only [intern, new]
  simp only [id?] at new ⊢
  rw [Std.TreeMap.getElem?_insert]
  by_cases same : name = other
  · subst same
    simp [new, eq_comm]
  · have different : ¬ other = name := fun equality => same equality.symm
    simp [same, different]

theorem id?_intern :
    (nonterminals.intern name).2.id? name = some (nonterminals.intern name).1 := by
  cases found : nonterminals.id? name with
  | some id => simp [intern, found]
  | none =>
      rw [nonterminals.id?_intern_iff name found]
      exact Or.inr ⟨rfl, by simp [intern, found]⟩

theorem extends_intern : nonterminals.Extends (nonterminals.intern name).2 := by
  intro other id known
  cases found : nonterminals.id? name with
  | some _ => simpa [intern, found] using known
  | none => exact (nonterminals.id?_intern_iff name found other id).mpr (Or.inl known)

variable {nonterminals}

theorem Coherent.intern (coherent : nonterminals.Coherent) (name : Nonterminal) :
    (nonterminals.intern name).2.Coherent := by
  cases found : nonterminals.id? name with
  | some _ => simpa [Nonterminals.intern, found] using coherent
  | none =>
      intro other id known
      rw [Nonterminals.intern, found]
      rcases (nonterminals.id?_intern_iff name found other id).mp known with
        old | ⟨rfl, rfl⟩
      · have different : id ≠ nonterminals.names.size :=
          Nat.ne_of_lt (coherent.id_lt other id old)
        rw [Array.getElem?_push, if_neg different]
        exact coherent other id old
      · exact Array.getElem?_push_size

end Intern

section InternAll

variable {nonterminals : Nonterminals}

theorem extends_internAll (names : List Nonterminal) :
    nonterminals.Extends (nonterminals.internAll names).2 := by
  induction names generalizing nonterminals with
  | nil => exact .refl nonterminals
  | cons name names induction =>
      exact (nonterminals.extends_intern name).trans induction

theorem Coherent.internAll (coherent : nonterminals.Coherent)
    (names : List Nonterminal) : (nonterminals.internAll names).2.Coherent := by
  induction names generalizing nonterminals with
  | nil => exact coherent
  | cons name names induction => exact induction (coherent.intern name)

theorem map_id?_internAll (names : List Nonterminal) :
    names.map (nonterminals.internAll names).2.id? =
      (nonterminals.internAll names).1.map some := by
  induction names generalizing nonterminals with
  | nil => rfl
  | cons name names induction =>
      have first : ((nonterminals.intern name).2.internAll names).2.id? name =
          some (nonterminals.intern name).1 :=
        extends_internAll names _ _ (nonterminals.id?_intern name)
      simp only [List.map_cons, internAll, first]
      exact congrArg _ induction

end InternAll

theorem Extends.map_id? {earlier later : Nonterminals} (extension : earlier.Extends later)
    {names : List Nonterminal} {ids : List NonterminalId}
    (known : names.map earlier.id? = ids.map some) :
    names.map later.id? = ids.map some := by
  induction names generalizing ids with
  | nil => simpa using known
  | cons name names induction =>
      cases ids with
      | nil => simp at known
      | cons id ids =>
          simp only [List.map_cons, List.cons.injEq] at known ⊢
          exact ⟨extension name id known.1, induction known.2⟩

end Nonterminals

/-! ## Filing rules -/

/-- A concatenation that can derive something: it has a body, no chain is empty,
and every reference names one of its bodies. -/
structure ConcatenationRule.Proper (rule : ConcatenationRule) : Prop where
  bodies_ne_nil : rule.bodies ≠ []
  chain_ne_nil : ∀ chain ∈ rule.wiring, chain ≠ []
  body_lt : ∀ reference ∈ rule.wiring.flatten, reference.body < rule.bodies.length

instance (rule : ConcatenationRule) : Decidable rule.Proper :=
  decidable_of_iff (rule.bodies ≠ [] ∧ (∀ chain ∈ rule.wiring, chain ≠ []) ∧
      ∀ reference ∈ rule.wiring.flatten, reference.body < rule.bodies.length)
    ⟨fun ⟨bodies, chains, inside⟩ => ⟨bodies, chains, inside⟩,
      fun ⟨bodies, chains, inside⟩ => ⟨bodies, chains, inside⟩⟩

/-- The join is the concatenation with numbers for nonterminals. -/
structure Join.Numbers (nonterminals : Nonterminals) (rule : ConcatenationRule)
    (join : Join) : Prop where
  head : nonterminals.id? rule.head = some join.head
  bodies : rule.bodies.map nonterminals.id? = join.bodies.map some
  wiring : join.wiring = rule.wiring
  links : join.links = rule.links
  arities : join.arities = (List.range rule.bodies.length).map rule.bodyArity

namespace Program

/-- The step is what is filed for a rule with the given head, label and index. -/
structure Numbers (nonterminals : Nonterminals) (head : Nonterminal) (label : Label)
    (index : Nat) (step : UnaryStep) : Prop where
  head : nonterminals.id? head = some step.head
  label : step.label = label
  index : step.index = index

/-- The rows of a program hold exactly the rules of a grammar. -/
structure Represents (program : Program) (nonterminals : Nonterminals)
    (grammar : Grammar) : Prop where
  coherent : nonterminals.Coherent
  start : nonterminals.id? Grammar.startName = some program.start
  basic : ∀ label head, head ∈ program.basic.row label ↔
    ∃ rule ∈ grammar.basic, rule.label = label ∧
      nonterminals.id? rule.head = some head
  prepend : ∀ body step, step ∈ program.prepend.row body ↔
    ∃ rule ∈ grammar.prepend, nonterminals.id? rule.body = some body ∧
      Numbers nonterminals rule.head rule.label rule.index step
  append : ∀ body step, step ∈ program.append.row body ↔
    ∃ rule ∈ grammar.append, nonterminals.id? rule.body = some body ∧
      Numbers nonterminals rule.head rule.label rule.index step
  insert : ∀ body step, step ∈ program.insert.row body ↔
    ∃ rule ∈ grammar.insert, nonterminals.id? rule.body = some body ∧
      Numbers nonterminals rule.head rule.label rule.index step
  joins : ∀ body join position, (join, position) ∈ program.joins.row body ↔
    ∃ rule ∈ grammar.concatenate, rule.Proper ∧ join.Numbers nonterminals rule ∧
      join.bodies[position]? = some body
  basicNumbers : ∀ rule ∈ grammar.basic, ∃ head, nonterminals.id? rule.head = some head
  prependNumbers : ∀ rule ∈ grammar.prepend, ∃ body step,
    nonterminals.id? rule.body = some body ∧
      Numbers nonterminals rule.head rule.label rule.index step
  appendNumbers : ∀ rule ∈ grammar.append, ∃ body step,
    nonterminals.id? rule.body = some body ∧
      Numbers nonterminals rule.head rule.label rule.index step
  insertNumbers : ∀ rule ∈ grammar.insert, ∃ body step,
    nonterminals.id? rule.body = some body ∧
      Numbers nonterminals rule.head rule.label rule.index step
  joinNumbers : ∀ rule ∈ grammar.concatenate, rule.Proper →
    ∃ join : Join, join.Numbers nonterminals rule

section Filing

variable {ρ κ β : Type} [Ord κ]

/-- One step of filing: earlier numbers stay, the row of a key receives the
entries that the rule has with any later numbers, and a kept rule has one. -/
structure Files (step : Nonterminals × Keyed κ β → ρ → Nonterminals × Keyed κ β)
    (kept : ρ → Prop) (entry : Nonterminals → ρ → κ → β → Prop) : Prop where
  keeps : ∀ (state : Nonterminals × Keyed κ β) (rule : ρ),
    state.1.Extends (step state rule).1
  coherent : ∀ (state : Nonterminals × Keyed κ β) (rule : ρ),
    state.1.Coherent → (step state rule).1.Coherent
  row : ∀ (state : Nonterminals × Keyed κ β) (rule : ρ) (final : Nonterminals),
    (step state rule).1.Extends final → ∀ (key : κ) (value : β),
    value ∈ (step state rule).2.row key ↔
      value ∈ state.2.row key ∨ entry final rule key value
  filed : ∀ (state : Nonterminals × Keyed κ β) (rule : ρ) (final : Nonterminals),
    (step state rule).1.Extends final → kept rule →
      ∃ key value, entry final rule key value

variable {step : Nonterminals × Keyed κ β → ρ → Nonterminals × Keyed κ β}
  {kept : ρ → Prop} {entry : Nonterminals → ρ → κ → β → Prop}

theorem Files.foldl_extends (files : Files step kept entry) (rules : List ρ)
    (state : Nonterminals × Keyed κ β) :
    state.1.Extends (rules.foldl step state).1 := by
  induction rules generalizing state with
  | nil => exact .refl state.1
  | cons rule rules induction => exact (files.keeps state rule).trans (induction _)

theorem Files.foldl_coherent (files : Files step kept entry) (rules : List ρ)
    (state : Nonterminals × Keyed κ β) (coherent : state.1.Coherent) :
    (rules.foldl step state).1.Coherent := by
  induction rules generalizing state with
  | nil => exact coherent
  | cons rule rules induction => exact induction _ (files.coherent state rule coherent)

private theorem Files.foldl_row_from (files : Files step kept entry) (rules : List ρ)
    (state : Nonterminals × Keyed κ β) {final : Nonterminals}
    (later : (rules.foldl step state).1.Extends final) (key : κ) (value : β) :
    value ∈ (rules.foldl step state).2.row key ↔
      value ∈ state.2.row key ∨ ∃ rule ∈ rules, entry final rule key value := by
  induction rules generalizing state with
  | nil => simp
  | cons rule rules induction =>
      have stepLater : (step state rule).1.Extends final :=
        (files.foldl_extends rules _).trans later
      rw [List.foldl_cons, induction _ later, files.row state rule final stepLater]
      simp only [List.mem_cons, exists_eq_or_imp, or_assoc]

theorem Files.foldl_row [Std.TransOrd κ] (files : Files step kept entry) (rules : List ρ)
    (nonterminals : Nonterminals) {final : Nonterminals}
    (later : (rules.foldl step (nonterminals, .empty)).1.Extends final) (key : κ)
    (value : β) :
    value ∈ (rules.foldl step (nonterminals, .empty)).2.row key ↔
      ∃ rule ∈ rules, entry final rule key value := by
  rw [files.foldl_row_from rules _ later]
  simp [Keyed.row_empty]

theorem Files.foldl_filed (files : Files step kept entry) {rules : List ρ} {rule : ρ}
    (member : rule ∈ rules) (isKept : kept rule) (state : Nonterminals × Keyed κ β)
    {final : Nonterminals} (later : (rules.foldl step state).1.Extends final) :
    ∃ key value, entry final rule key value := by
  induction rules generalizing state with
  | nil => simp at member
  | cons first rules induction =>
      rcases List.mem_cons.mp member with rfl | inRest
      · exact files.filed state rule final ((files.foldl_extends rules _).trans later) isKept
      · exact induction inRest _ later

end Filing

private theorem files_basic :
    Files (fun (state : Nonterminals × Keyed Label NonterminalId) (rule : BasicRule) =>
        ((state.1.intern rule.head).2, state.2.push rule.label (state.1.intern rule.head).1))
      (fun _ => True) fun final rule label head =>
        rule.label = label ∧ final.id? rule.head = some head := by
  constructor
  · intro state rule
    exact state.1.extends_intern rule.head
  · intro state rule coherent
    exact coherent.intern rule.head
  · intro state rule final later label head
    have numbered := later _ _ (state.1.id?_intern rule.head)
    rw [Keyed.mem_row_push, numbered, Option.some.injEq]
    simp only [eq_comm]
  · intro state rule final later _
    exact ⟨rule.label, _, rfl, later _ _ (state.1.id?_intern rule.head)⟩

private theorem files_step {ρ : Type} (head body : ρ → Nonterminal) (label : ρ → Label)
    (index : ρ → Nat) :
    Files (fun state rule =>
        fileStep state (head rule) (body rule) (label rule) (index rule))
      (fun _ => True) fun final rule key step => final.id? (body rule) = some key ∧
        Numbers final (head rule) (label rule) (index rule) step := by
  constructor
  · intro state rule
    exact (state.1.extends_intern _).trans (Nonterminals.extends_intern _ _)
  · intro state rule coherent
    exact (coherent.intern _).intern _
  · intro state rule final later key step
    have bodyNumbered := later _ _ (Nonterminals.id?_intern _ (body rule))
    have headNumbered := later _ _ (Nonterminals.extends_intern _ (body rule) _ _
      (state.1.id?_intern (head rule)))
    refine Keyed.mem_row_push.trans (or_congr_right ?_)
    rw [bodyNumbered]
    constructor
    · rintro ⟨rfl, rfl⟩
      exact ⟨rfl, headNumbered, rfl, rfl⟩
    · rintro ⟨same, sameHead, sameLabel, sameIndex⟩
      obtain ⟨stepHead, stepLabel, stepIndex⟩ := step
      rw [headNumbered] at sameHead
      cases same
      cases sameHead
      cases sameLabel
      cases sameIndex
      exact ⟨rfl, rfl⟩
  · intro state rule final later _
    have bodyNumbered := later _ _ (Nonterminals.id?_intern _ (body rule))
    have headNumbered := later _ _ (Nonterminals.extends_intern _ (body rule) _ _
      (state.1.id?_intern (head rule)))
    exact ⟨_, ⟨_, label rule, index rule⟩, bodyNumbered, headNumbered, rfl, rfl⟩

private theorem files_extension :
    Files (fun state (rule : ExtensionRule) =>
        fileStep state rule.head rule.body rule.label rule.index)
      (fun _ => True) fun final rule key step => final.id? rule.body = some key ∧
        Numbers final rule.head rule.label rule.index step :=
  files_step _ _ _ _

private theorem files_insertion :
    Files (fun state (rule : InsertionRule) =>
        fileStep state rule.head rule.body rule.label rule.index)
      (fun _ => True) fun final rule key step => final.id? rule.body = some key ∧
        Numbers final rule.head rule.label rule.index step :=
  files_step _ _ _ _

private theorem toList_row_fileBodies {join : Join} {bodies : List NonterminalId}
    {offset : Nat} {filed : Keyed NonterminalId (Join × Nat)} (body : NonterminalId) :
    (((bodies.zipIdx offset).foldl
        (fun (filed : Keyed NonterminalId (Join × Nat)) (item : NonterminalId × Nat) =>
          filed.push item.1 (join, item.2)) filed).row body).toList =
      (filed.row body).toList ++ (bodies.idxsOf body offset).map fun position =>
        (join, position) := by
  induction bodies generalizing offset filed with
  | nil => simp
  | cons first bodies induction =>
      rw [List.zipIdx_cons, List.foldl_cons, induction, Keyed.toList_row_push,
        List.append_assoc, List.idxsOf_cons]
      by_cases same : first = body
      · simp [same]
      · simp [same]

private theorem mem_row_fileBodies {join : Join} {bodies : List NonterminalId}
    {filed : Keyed NonterminalId (Join × Nat)} {body : NonterminalId}
    {other : Join} {position : Nat} :
    (other, position) ∈ ((bodies.zipIdx.foldl
        (fun (filed : Keyed NonterminalId (Join × Nat)) (item : NonterminalId × Nat) =>
          filed.push item.1 (join, item.2)) filed).row body) ↔
      (other, position) ∈ filed.row body ∨
        (other = join ∧ bodies[position]? = some body) := by
  rw [← Array.mem_toList_iff, toList_row_fileBodies, List.mem_append, Array.mem_toList_iff]
  apply or_congr_right
  rw [List.mem_map, List.getElem?_eq_some_iff]
  constructor
  · rintro ⟨place, found, same⟩
    obtain ⟨rfl, rfl⟩ := Prod.mk.inj same
    obtain ⟨inside, here⟩ := List.mem_idxsOf_iff_exists_getElem_pos.mp found
    exact ⟨rfl, inside, eq_of_beq here⟩
  · rintro ⟨rfl, inside, here⟩
    exact ⟨position, List.mem_idxsOf_iff_exists_getElem_pos.mpr ⟨inside, beq_of_eq here⟩, rfl⟩

section Concatenation

variable (state : Nonterminals × Keyed NonterminalId (Join × Nat))
  (rule : ConcatenationRule)

/-- No body, or a chain without references. -/
private def isHollow (rule : ConcatenationRule) : Bool :=
  rule.bodies.isEmpty || rule.wiring.any List.isEmpty

/-- A reference to a missing body. -/
private def isDangling (rule : ConcatenationRule) : Bool :=
  rule.wiring.flatten.any fun reference => rule.bodies.length ≤ reference.body

private theorem proper_iff :
    rule.Proper ↔ isHollow rule = false ∧ isDangling rule = false := by
  constructor
  · rintro ⟨hasBody, hasReferences, inside⟩
    constructor
    · rw [isHollow, Bool.or_eq_false_iff]
      constructor
      · simpa using hasBody
      · rw [List.any_eq_false]
        intro chain member
        simpa using hasReferences chain member
    · rw [isDangling, List.any_eq_false]
      intro reference member
      simpa using inside reference member
  · rintro ⟨notHollow, notDangling⟩
    rw [isHollow, Bool.or_eq_false_iff, List.any_eq_false] at notHollow
    rw [isDangling, List.any_eq_false] at notDangling
    constructor
    · simpa using notHollow.1
    · intro chain member
      simpa using notHollow.2 chain member
    · intro reference member
      simpa using notDangling reference member

private theorem length_internAll (nonterminals : Nonterminals)
    (names : List Nonterminal) :
    (nonterminals.internAll names).1.length = names.length := by
  have numbered := congrArg List.length
    (@Nonterminals.map_id?_internAll nonterminals names)
  simpa using numbered.symm

/-- The concatenation with the numbers of its names. -/
private def joinOf (nonterminals : Nonterminals) (rule : ConcatenationRule) : Join :=
  ⟨((nonterminals.internAll rule.bodies).2.intern rule.head).1,
    (nonterminals.internAll rule.bodies).1, rule.wiring, rule.links,
    (List.range rule.bodies.length).map rule.bodyArity⟩

private theorem fileConcatenation_eq :
    fileConcatenation ConcatenationRule.bodyArity state rule =
      if isHollow rule then state
      else if isDangling rule then ((state.1.internAll rule.bodies).2, state.2)
      else
        (((state.1.internAll rule.bodies).2.intern rule.head).2,
          (joinOf state.1 rule).bodies.zipIdx.foldl
            (fun filed item => filed.push item.1 (joinOf state.1 rule, item.2)) state.2) := by
  obtain ⟨nonterminals, filed⟩ := state
  simp only [fileConcatenation, length_internAll]
  rfl

variable {rule}

private theorem fileConcatenation_of_proper (proper : rule.Proper) :
    fileConcatenation ConcatenationRule.bodyArity state rule =
      (((state.1.internAll rule.bodies).2.intern rule.head).2,
        (joinOf state.1 rule).bodies.zipIdx.foldl
          (fun filed item => filed.push item.1 (joinOf state.1 rule, item.2)) state.2) := by
  obtain ⟨notHollow, notDangling⟩ := (proper_iff rule).mp proper
  simp only [fileConcatenation_eq, notHollow, notDangling, Bool.false_eq_true, if_false]

private theorem fileConcatenation_of_not_proper (improper : ¬ rule.Proper) :
    (fileConcatenation ConcatenationRule.bodyArity state rule).2 = state.2 := by
  rw [fileConcatenation_eq]
  split
  · rfl
  · rename_i notHollow
    split
    · rfl
    · rename_i notDangling
      exact absurd ((proper_iff rule).mpr ⟨by simpa using notHollow, by simpa using notDangling⟩)
        improper

private theorem numbers_iff_eq_joinOf {nonterminals final : Nonterminals}
    (later : ((nonterminals.internAll rule.bodies).2.intern rule.head).2.Extends final)
    {join : Join} : join.Numbers final rule ↔ join = joinOf nonterminals rule := by
  have headNumbered := later _ _ (Nonterminals.id?_intern _ rule.head)
  have bodiesNumbered := ((Nonterminals.extends_intern _ rule.head).trans later).map_id?
    (@Nonterminals.map_id?_internAll nonterminals rule.bodies)
  constructor
  · obtain ⟨joinHead, joinBodies, wiring, links, arities⟩ := join
    rintro ⟨sameHead, sameBodies, sameWiring, sameLinks, sameArities⟩
    rw [headNumbered] at sameHead
    rw [bodiesNumbered] at sameBodies
    have equalBodies :=
      (List.map_inj_right fun _ _ same => Option.some.inj same).mp sameBodies
    simp only at sameWiring sameLinks sameArities equalBodies
    cases sameHead
    subst equalBodies sameWiring sameLinks sameArities
    rfl
  · rintro rfl
    exact ⟨headNumbered, bodiesNumbered, rfl, rfl, rfl⟩

end Concatenation

private theorem files_concatenation :
    Files (fileConcatenation ConcatenationRule.bodyArity) ConcatenationRule.Proper
      fun final rule body filed => rule.Proper ∧ filed.1.Numbers final rule ∧
        filed.1.bodies[filed.2]? = some body := by
  constructor
  · intro state rule
    rw [fileConcatenation_eq]
    split
    · exact .refl _
    · split
      · exact Nonterminals.extends_internAll _
      · exact (Nonterminals.extends_internAll _).trans (Nonterminals.extends_intern _ _)
  · intro state rule coherent
    rw [fileConcatenation_eq]
    split
    · exact coherent
    · split
      · exact coherent.internAll _
      · exact (coherent.internAll _).intern _
  · rintro state rule final later body ⟨join, position⟩
    by_cases proper : rule.Proper
    · rw [fileConcatenation_of_proper state proper] at later ⊢
      rw [numbers_iff_eq_joinOf later]
      refine mem_row_fileBodies.trans (or_congr_right ?_)
      constructor
      · rintro ⟨rfl, found⟩
        exact ⟨proper, rfl, found⟩
      · rintro ⟨_, rfl, found⟩
        exact ⟨rfl, found⟩
    · rw [fileConcatenation_of_not_proper state proper]
      simp [proper]
  · intro state rule final later proper
    rw [fileConcatenation_of_proper state proper] at later
    have hasBody : 0 < (joinOf state.1 rule).bodies.length := by
      rw [joinOf, length_internAll]
      exact List.length_pos_iff.mpr proper.bodies_ne_nil
    exact ⟨_, (joinOf state.1 rule, 0), proper, (numbers_iff_eq_joinOf later).mpr rfl,
      List.getElem?_eq_getElem hasBody⟩

/-! ## The rows of joins -/

/-- The places of proper concatenations at which a body has the number, rule by rule and from
left to right. -/
def placesOf (rules : List ConcatenationRule) (nonterminals : Nonterminals)
    (body : NonterminalId) : List (ConcatenationRule × Nat) :=
  (rules.filter fun rule => rule.Proper).flatMap fun rule =>
    ((rule.bodies.map nonterminals.id?).idxsOf (some body)).map fun position => (rule, position)

/-- The join is that of a proper rule, and it is filed for the place of the body. -/
structure FiledFor (nonterminals : Nonterminals) (body : NonterminalId) (filed : Join × Nat)
    (place : ConcatenationRule × Nat) : Prop where
  proper : place.1.Proper
  numbers : filed.1.Numbers nonterminals place.1
  position : filed.2 = place.2
  body : filed.1.bodies[filed.2]? = some body

private theorem filedFor_joinOf {nonterminals final : Nonterminals} {rule : ConcatenationRule}
    (proper : rule.Proper)
    (later : ((nonterminals.internAll rule.bodies).2.intern rule.head).2.Extends final)
    (body : NonterminalId) :
    List.Forall₂ (FiledFor final body)
      (((joinOf nonterminals rule).bodies.idxsOf body).map fun position =>
        (joinOf nonterminals rule, position))
      (((rule.bodies.map final.id?).idxsOf (some body)).map fun position =>
        (rule, position)) := by
  have numbers := (numbers_iff_eq_joinOf later).mpr (rfl : joinOf nonterminals rule = _)
  rw [numbers.bodies, List.idxsOf_map, List.forall₂_map_left_iff, List.forall₂_map_right_iff]
  refine List.forall₂_same.mpr fun position found => ⟨proper, numbers, rfl, ?_⟩
  obtain ⟨inside, here⟩ := List.mem_idxsOf_iff_exists_getElem_pos.mp found
  exact List.getElem?_eq_some_iff.mpr ⟨inside, eq_of_beq here⟩

private theorem exists_filed (rules : List ConcatenationRule)
    (state : Nonterminals × Keyed NonterminalId (Join × Nat)) {final : Nonterminals}
    (later : (rules.foldl (fileConcatenation ConcatenationRule.bodyArity) state).1.Extends final)
    (body : NonterminalId) :
    ∃ filed, ((rules.foldl (fileConcatenation ConcatenationRule.bodyArity)
        state).2.row body).toList = (state.2.row body).toList ++ filed ∧
      List.Forall₂ (FiledFor final body) filed (placesOf rules final body) := by
  induction rules generalizing state with
  | nil => exact ⟨[], by simp, .nil⟩
  | cons rule rules induction =>
      obtain ⟨filed, appended, matched⟩ := induction _ later
      rw [List.foldl_cons, appended]
      by_cases proper : rule.Proper
      · have extended := (files_concatenation.foldl_extends rules _).trans later
        rw [fileConcatenation_of_proper state proper] at extended ⊢
        refine ⟨_, (congrArg (· ++ filed) (toList_row_fileBodies body)).trans
          (List.append_assoc _ _ _), ?_⟩
        rw [placesOf, List.filter_cons_of_pos (by simpa using proper), List.flatMap_cons]
        exact List.rel_append (filedFor_joinOf proper extended body) matched
      · rw [fileConcatenation_of_not_proper state proper]
        refine ⟨filed, rfl, ?_⟩
        rw [placesOf, List.filter_cons_of_neg (by simpa using proper)]
        exact matched

theorem joins_ofGrammar (grammar : Grammar) (body : NonterminalId) :
    List.Forall₂ (FiledFor (ofGrammar grammar).1 body)
      ((ofGrammar grammar).2.joins.row body).toList
      (placesOf grammar.concatenate (ofGrammar grammar).1 body) := by
  obtain ⟨filed, row, matched⟩ := exists_filed grammar.concatenate (_, .empty) (.refl _) body
  rw [Keyed.row_empty, List.nil_append] at row
  exact row ▸ matched

/-! ## Preparing a grammar -/

/-- Preparing a grammar files exactly its rules. -/
theorem represents_ofGrammar (grammar : Grammar) :
    (ofGrammar grammar).2.Represents (ofGrammar grammar).1 grammar := by
  let first := (Nonterminals.empty.intern Grammar.startName).2
  let second := fileBasic first grammar.basic
  let third := fileExtensions second.1 grammar.prepend
  let fourth := fileExtensions third.1 grammar.append
  let fifth := fileInsertions fourth.1 grammar.insert
  let sixth := fileConcatenations ConcatenationRule.bodyArity fifth.1 grammar.concatenate
  have fifthLater : fifth.1.Extends sixth.1 :=
    files_concatenation.foldl_extends grammar.concatenate (fifth.1, .empty)
  have fourthLater : fourth.1.Extends sixth.1 :=
    (files_insertion.foldl_extends grammar.insert (fourth.1, .empty)).trans fifthLater
  have thirdLater : third.1.Extends sixth.1 :=
    (files_extension.foldl_extends grammar.append (third.1, .empty)).trans fourthLater
  have secondLater : second.1.Extends sixth.1 :=
    (files_extension.foldl_extends grammar.prepend (second.1, .empty)).trans thirdLater
  have firstLater : first.Extends sixth.1 :=
    (files_basic.foldl_extends grammar.basic (first, .empty)).trans secondLater
  have firstCoherent : first.Coherent := Nonterminals.coherent_empty.intern _
  have secondCoherent := files_basic.foldl_coherent grammar.basic (first, .empty) firstCoherent
  have thirdCoherent := files_extension.foldl_coherent
    grammar.prepend (second.1, .empty) secondCoherent
  have fourthCoherent := files_extension.foldl_coherent
    grammar.append (third.1, .empty) thirdCoherent
  have fifthCoherent := files_insertion.foldl_coherent
    grammar.insert (fourth.1, .empty) fourthCoherent
  refine
    { coherent := files_concatenation.foldl_coherent grammar.concatenate
        (fifth.1, .empty) fifthCoherent
      start := firstLater _ _ (Nonterminals.id?_intern _ _)
      basic := files_basic.foldl_row grammar.basic first secondLater
      prepend := files_extension.foldl_row grammar.prepend second.1 thirdLater
      append := files_extension.foldl_row grammar.append third.1 fourthLater
      insert := files_insertion.foldl_row grammar.insert fourth.1 fifthLater
      joins := ?_, basicNumbers := ?_, prependNumbers := ?_, appendNumbers := ?_
      insertNumbers := ?_, joinNumbers := ?_ }
  · intro body join position
    exact files_concatenation.foldl_row grammar.concatenate fifth.1 (.refl _)
      body (join, position)
  · intro rule member
    obtain ⟨_, head, _, numbered⟩ :=
      files_basic.foldl_filed member trivial (first, .empty) secondLater
    exact ⟨head, numbered⟩
  · intro rule member
    exact files_extension.foldl_filed member trivial (second.1, .empty) thirdLater
  · intro rule member
    exact files_extension.foldl_filed member trivial (third.1, .empty) fourthLater
  · intro rule member
    exact files_insertion.foldl_filed member trivial (fourth.1, .empty) fifthLater
  · intro rule member proper
    obtain ⟨_, filed, _, numbers, _⟩ :=
      files_concatenation.foldl_filed member proper (fifth.1, .empty) (.refl _)
    exact ⟨filed.1, numbers⟩

end Program

end GrammarReach
