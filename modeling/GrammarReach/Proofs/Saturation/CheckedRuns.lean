import GrammarReach.Proofs.Saturation.NumberedJoins
import GrammarReach.Proofs.Saturation.PartialRuns

/-!
# Runs with checked places

A step of a run reads and changes segments, bound positions, arities, joins and derivations at
places.  In a checked step every such place that no guard covers has to be in range, or the
step fails.  For the program of a grammar a checked step never fails, whatever numbers the
rules mention, and does what a step does.
-/

namespace GrammarReach

namespace Checked

/-! ## Checked places -/

section Places

variable {α β : Type}

/-- Changes the item at a place. -/
def modify? (items : List α) (place : Nat) (change : α → α) : Option (List α) :=
  if place < items.length then some (items.modify place change) else none

/-- Puts an item at a place, which may be the end. -/
def insert? (items : List α) (place : Nat) (item : α) : Option (List α) :=
  if place ≤ items.length then some (items.insertIdx place item) else none

/-- What all items give, one after the other. -/
def gather (items : List α) (give : α → Option (List β)) : Option (List β) :=
  (items.mapM give).map List.flatten

theorem gather_eq_some {items : List α} {give : α → Option (List β)} {value : α → List β}
    (gives : ∀ item ∈ items, give item = some (value item)) :
    gather items give = some (items.flatMap value) := by
  rw [gather, mapM_eq_some gives]
  rfl

theorem modify?_const {items : List α} {place : Nat} (inside : place < items.length) (item : α) :
    modify? items place (fun _ => item) = some (items.set place item) := by
  rw [modify?, if_pos inside, List.set_eq_modify]

theorem modify?_eq {items : List α} {place : Nat} {item : α} (found : items[place]? = some item)
    (change : α → α) : modify? items place change = some (items.set place (change item)) := by
  rw [modify?, if_pos (List.getElem?_eq_some_iff.mp found).1, List.modify_eq_set_getElem?, found]
  rfl

end Places

/-! ## Checked joins -/

section Joins

variable (table : DerivationTable) (join : Join) (binding : Binding)

/-- The segment that a reference names, when its body is bound and has it.  What is bound has
to stand in the table. -/
def segment? (reference : SegmentRef) : Option (Option Span) :=
  match binding.at? reference.body with
  | none => some none
  | some id => (table.derivation? id).map fun derivation => derivation.segments[reference.segment]?

/-- The link meets at a vertex if both of its ends are bound. -/
def linkHolds? (link : SegmentRef × SegmentRef) : Option Bool := do
  let left ← segment? table binding link.1
  let right ← segment? table binding link.2
  return match left, right with
    | some leftSpan, some rightSpan => leftSpan.stop == rightSpan.start
    | _, _ => true

def linksHold? : Option Bool :=
  (join.links.mapM (linkHolds? table binding)).map fun held => held.all id

/-- One end of a link is at the position, and the other end is bound at another position. -/
def asks? (position : Nat) (near far : SegmentRef) : Option Bool :=
  if near.body = position then
    (binding[far.body]?).map fun bound => bound.isSome && decide (far.body ≠ position)
  else
    some false

/-- The boundary at which a link asks for the derivation at a position. -/
def demand? (position : Nat) (body : NonterminalId) (link : SegmentRef × SegmentRef) :
    Option (Option Boundary) := do
  if ← asks? binding position link.1 link.2 then
    let right ← segment? table binding link.2
    return right.map fun span => ⟨body, link.1.segment, .stop, span.start⟩
  else if ← asks? binding position link.2 link.1 then
    let left ← segment? table binding link.1
    return left.map fun span => ⟨body, link.2.segment, .start, span.stop⟩
  else
    return none

/-- The derivations to try at a position. -/
def choices? (position : Nat) (body : NonterminalId) : Option (Array DerivationId) :=
  (join.links.mapM (demand? table binding position body)).map fun demands =>
    (Join.shortest? ((demands.filterMap id).map table.atBoundary)).getD
      (table.ofNonterminal body)

/-- The derivation has the segments that the join refers to. -/
def fits? (position : Nat) (id : DerivationId) : Option Bool := do
  let derivation ← table.derivation? id
  let arity ← join.arities[position]?
  return decide (arity ≤ derivation.dimension)

/-- Binds the first position that is not bound, and so on.  A search that goes deeper than the
given depth fails. -/
def complete? : Nat → Binding → Option (List (List DerivationId))
  | depth, binding =>
      match binding.findIdx? Option.isNone, depth with
      | none, _ => some [binding.filterMap id]
      | some _, 0 => none
      | some position, depth + 1 => do
          let body ← join.bodies[position]?
          let choices ← choices? table join binding position body
          gather choices.toList fun id => do
            if ← fits? table join position id then
              let extended ← modify? binding position fun _ => some id
              if ← linksHold? table join extended then
                complete? depth extended
              else
                return []
            else
              return []

/-- All ways to bind the bodies with the given derivation at the given position. -/
def combinations? (position : Nat) (id : DerivationId) (derivation : Derivation) :
    Option (List (List DerivationId)) := do
  let arity ← join.arities[position]?
  if derivation.dimension < arity then
    return []
  else
    let binding ← modify? (List.replicate join.bodies.length none) position fun _ => some id
    if ← linksHold? table join binding then
      complete? table join join.bodies.length binding
    else
      return []

/-- The span of a chain. -/
def chainSpan? (chain : List SegmentRef) : Option (Option Span) :=
  match chain.head?, chain.getLast? with
  | some first, some last => do
      let first ← segment? table binding first
      let last ← segment? table binding last
      return do return ⟨(← first).start, (← last).stop⟩
  | _, _ => some none

/-- The candidate that a join makes of derivations for its bodies. -/
def assemble? (combination : List DerivationId) : Option (Option Candidate) :=
  (join.wiring.mapM (chainSpan? table (combination.map some))).map fun spans =>
    (spans.mapM id).map fun segments =>
      { derivation := ⟨join.head, segments⟩
        antecedents := combination }

end Joins

/-! ## Checked candidates -/

section Candidates

variable (graph : Graph) (program : Program) (file : JoinFile) (table : DerivationTable)
  (id : DerivationId) (derivation : Derivation)

def ofPrepends? : Option (List Candidate) :=
  gather (program.prepend.row derivation.nonterminal).toList fun step =>
    match derivation.segments[step.index]? with
    | none => some []
    | some span =>
        (graph.sources (.at span.start) step.label).toList.mapM fun source => do
          let segments ← modify? derivation.segments step.index fun segment =>
            { segment with start := source }
          return { derivation := ⟨step.head, segments⟩
                   edge := some ⟨source, span.start, step.label⟩
                   antecedents := [id] }

def ofAppends? : Option (List Candidate) :=
  gather (program.append.row derivation.nonterminal).toList fun step =>
    match derivation.segments[step.index]? with
    | none => some []
    | some span =>
        (graph.targets (.at span.stop) step.label).toList.mapM fun target => do
          let segments ← modify? derivation.segments step.index fun segment =>
            { segment with stop := target }
          return { derivation := ⟨step.head, segments⟩
                   edge := some ⟨span.stop, target, step.label⟩
                   antecedents := [id] }

def ofInsertions? : Option (List Candidate) :=
  gather (program.insert.row derivation.nonterminal).toList fun step =>
    if derivation.segments.length < step.index then
      some []
    else
      (graph.edgesLabelled step.label).toList.mapM fun edge => do
        let segments ← insert? derivation.segments step.index ⟨edge.source, edge.target⟩
        return { derivation := ⟨step.head, segments⟩
                 edge := some edge
                 antecedents := [id] }

/-- The candidates of a join that has the derivation at a position. -/
def ofJoin? (use : Join × Nat) : Option (List Candidate) := do
  let combinations ← combinations? table use.1 use.2 id derivation
  gather combinations fun combination => (assemble? table use.1 combination).map Option.toList

/-- The joins are looked up by their numbers. -/
def ofJoins? : Option (List Candidate) :=
  gather (file.uses.row derivation.nonterminal).toList fun use => do
    ofJoin? table id derivation (← JoinFile.resolve? file.joins use)

/-- All candidates that a derivation sets off, rule shape by rule shape. -/
def all? : Option (List Candidate) := do
  let prepended ← ofPrepends? graph program id derivation
  let appended ← ofAppends? graph program id derivation
  let inserted ← ofInsertions? graph program id derivation
  let joined ← ofJoins? file table id derivation
  return prepended ++ appended ++ inserted ++ joined

end Candidates

/-! ## Checked steps -/

/-- Notes a derivation as an answer when it is a one-segment derivation of the start
nonterminal. -/
def noteAnswer? (start : NonterminalId) (state : RunState) (id : DerivationId)
    (derivation : Derivation) : Option RunState :=
  if derivation.nonterminal = start ∧ derivation.dimension = 1 then do
    let span ← derivation.segments[0]?
    return { state with
      spans := state.spans.push span
      provenance := state.provenance.map fun provenance => provenance.recordRoot span id }
  else
    some state

/-- Takes the next derivation of the table, unless all were taken, and offers its
candidates. -/
def advance? (problem : Problem) (file : JoinFile) (state : RunState) : Option RunState :=
  if state.isFinished then
    some state
  else do
    let derivation ← state.table.derivation? state.taken
    let noted ← noteAnswer? problem.program.start state state.taken derivation
    let candidates ← all? problem.graph problem.program file state.table state.taken derivation
    return candidates.foldl (RunState.offer problem.components)
      { noted with taken := state.taken + 1 }

/-- The given number of checked steps. -/
def run? (problem : Problem) (file : JoinFile) : Nat → RunState → Option RunState
  | 0, state => some state
  | steps + 1, state => (advance? problem file state).bind (run? problem file steps)

/-! ## Checked joins do what joins do -/

/-- Every bound position is bound to a derivation of the table. -/
def Bound (table : DerivationTable) (binding : Binding) : Prop :=
  ∀ position id, binding.at? position = some id →
    ∃ derivation, table.derivation? id = some derivation

/-- A join with an arity for each body, and with links between its bodies. -/
structure InRange (join : Join) : Prop where
  arities : join.arities.length = join.bodies.length
  links : ∀ link ∈ join.links,
    link.1.body < join.bodies.length ∧ link.2.body < join.bodies.length

section JoinsEq

variable {table : DerivationTable} {join : Join} {binding : Binding} {position : Nat}
  {id : DerivationId} {derivation : Derivation}

theorem Bound.set (bound : Bound table binding) (inside : position < binding.length)
    (place : table.derivation? id = some derivation) :
    Bound table (binding.set position (some id)) := by
  intro other otherId found
  rw [Binding.at?_set inside] at found
  split at found
  · cases found
    exact ⟨derivation, place⟩
  · exact bound other otherId found

theorem segment?_eq (bound : Bound table binding) (reference : SegmentRef) :
    segment? table binding reference = some (binding.segment? table reference) := by
  rw [segment?, Binding.segment?]
  cases found : binding.at? reference.body with
  | none => rfl
  | some id =>
      obtain ⟨derivation, place⟩ := bound _ _ found
      simp [place]

theorem linksHold?_eq (bound : Bound table binding) :
    linksHold? table join binding = some (join.linksHold table binding) := by
  have each : ∀ link ∈ join.links, linkHolds? table binding link =
      some (match binding.segment? table link.1, binding.segment? table link.2 with
        | some leftSpan, some rightSpan => leftSpan.stop == rightSpan.start
        | _, _ => true) := by
    intro link _
    rw [linkHolds?, segment?_eq bound, segment?_eq bound]
    rfl
  rw [linksHold?, mapM_eq_some each, Option.map_some, List.all_map]
  rfl

private theorem asks?_eq {near far : SegmentRef} (inside : far.body < binding.length) :
    asks? binding position near far = some (decide
      (near.body = position ∧ far.body ≠ position ∧ (binding.at? far.body).isSome)) := by
  unfold asks?
  by_cases here : near.body = position
  · rw [if_pos here, Binding.at?, List.getElem?_eq_getElem inside]
    simp [here, Bool.and_comm]
  · simp [here]

theorem demand?_eq (bound : Bound table binding) {link : SegmentRef × SegmentRef}
    (inside : link.1.body < binding.length ∧ link.2.body < binding.length)
    (body : NonterminalId) :
    demand? table binding position body link =
      some (Join.demand? table binding position body link) := by
  obtain ⟨left, right⟩ := link
  rw [demand?, asks?_eq inside.2, asks?_eq inside.1, segment?_eq bound, segment?_eq bound,
    Join.demand?]
  simp only [Option.bind_eq_bind, Option.bind_some, decide_eq_true_eq]
  split
  · rfl
  · split
    · rfl
    · rfl

theorem choices?_eq (inRange : InRange join) (bound : Bound table binding)
    (length : binding.length = join.bodies.length) (body : NonterminalId) :
    choices? table join binding position body =
      some (join.choices table binding position body) := by
  have each : ∀ link ∈ join.links, demand? table binding position body link =
      some (Join.demand? table binding position body link) := fun link member =>
    demand?_eq bound (length ▸ inRange.links link member) body
  rw [choices?, mapM_eq_some each, Option.map_some, List.filterMap_map]
  rfl

theorem fits?_eq (inRange : InRange join) (place : table.derivation? id = some derivation)
    (inside : position < join.bodies.length) :
    fits? table join position id = some (join.fits table position id) := by
  have arity : position < join.arities.length := inRange.arities ▸ inside
  simp [fits?, Join.fits, place, Join.arityAt, arity]

private theorem findIdx?_isNone (before : ∀ other < position, (binding.at? other).isSome = true)
    (inside : position < binding.length) (unbound : (binding.at? position).isSome = false) :
    binding.findIdx? Option.isNone = some position := by
  refine List.findIdx?_eq_some_iff_getElem.mpr ⟨inside, ?_, fun other earlier => ?_⟩
  · simpa [Binding.at?, inside] using unbound
  · have here := before other earlier
    rw [Binding.at?, List.getElem?_eq_getElem (Nat.lt_trans earlier inside)] at here
    rwa [Bool.not_eq_true, Option.isNone_eq_false_iff]

private theorem findIdx?_isNone_of_length_le
    (before : ∀ other < position, (binding.at? other).isSome = true)
    (short : binding.length ≤ position) : binding.findIdx? Option.isNone = none := by
  refine List.findIdx?_eq_none_iff.mpr fun slot member => ?_
  obtain ⟨other, inside, rfl⟩ := List.mem_iff_getElem.mp member
  have here := before other (Nat.lt_of_lt_of_le inside short)
  rw [Binding.at?, List.getElem?_eq_getElem inside] at here
  rwa [Option.isNone_eq_false_iff]

private theorem isSome_at?_succ (before : ∀ other < position, (binding.at? other).isSome = true)
    (here : (binding.at? position).isSome = true) :
    ∀ other < position + 1, (binding.at? other).isSome = true := by
  intro other earlier
  rcases Nat.lt_succ_iff_lt_or_eq.mp earlier with past | rfl
  · exact before other past
  · exact here

private theorem complete?_unbound (coherent : table.Coherent) (inRange : InRange join)
    {body : NonterminalId} {rest : List (NonterminalId × Nat)} {depth : Nat}
    (bound : Bound table binding) (length : binding.length = join.bodies.length)
    (place : join.bodies[position]? = some body)
    (before : ∀ other < position, (binding.at? other).isSome = true)
    (unbound : (binding.at? position).isSome = false)
    (later : ∀ id, Bound table (binding.set position (some id)) →
      complete? table join depth (binding.set position (some id)) =
        some (join.complete table rest (binding.set position (some id)))) :
    complete? table join (depth + 1) binding =
      some (join.complete table ((body, position) :: rest) binding) := by
  have inside : position < join.bodies.length := (List.getElem?_eq_some_iff.mp place).1
  have insideBinding : position < binding.length := length ▸ inside
  rw [Join.complete, if_neg (Bool.eq_false_iff.mp unbound)]
  unfold complete?
  simp only [findIdx?_isNone before insideBinding unbound, place,
    choices?_eq inRange bound length, Option.bind_eq_bind, Option.bind_some]
  refine gather_eq_some fun id chosen => ?_
  obtain ⟨derivation, placed, _⟩ :=
    Join.nonterminal_of_mem_choices coherent (Array.mem_toList_iff.mp chosen)
  have extended := bound.set insideBinding placed
  rw [fits?_eq inRange placed inside, modify?_const insideBinding]
  simp only [Option.bind_some, linksHold?_eq extended, later id extended]
  cases join.fits table position id <;>
    cases join.linksHold table (binding.set position (some id)) <;> rfl

/-- The first position to bind comes at the head of the bodies that are left, so a search over
the rest of the bodies is a search for the first unbound position. -/
theorem complete?_eq (coherent : table.Coherent) (inRange : InRange join)
    (rest : List NonterminalId) {depth : Nat} (bound : Bound table binding)
    (length : binding.length = join.bodies.length)
    (suffix : join.bodies.drop position = rest) (deep : rest.length ≤ depth)
    (before : ∀ other < position, (binding.at? other).isSome = true) :
    complete? table join depth binding =
      some (join.complete table (rest.zipIdx position) binding) := by
  induction rest generalizing position depth binding with
  | nil =>
      have passed : binding.length ≤ position := length ▸ List.drop_eq_nil_iff.mp suffix
      unfold complete?
      simp only [findIdx?_isNone_of_length_le before passed]
      rfl
  | cons body rest induction =>
      have place : join.bodies[position]? = some body := by
        rw [← List.head?_drop, suffix, List.head?_cons]
      have restSuffix : join.bodies.drop (position + 1) = rest := by
        rw [← List.drop_drop, suffix, List.drop_one, List.tail_cons]
      rw [List.length_cons] at deep
      rw [List.zipIdx_cons]
      cases here : (binding.at? position).isSome with
      | true =>
          rw [Join.complete, if_pos here]
          exact induction bound length restSuffix (Nat.le_of_succ_le deep)
            (isSome_at?_succ before here)
      | false =>
          obtain ⟨depth, rfl⟩ := Nat.exists_eq_add_of_le' deep
          have insideBinding : position < binding.length :=
            length ▸ (List.getElem?_eq_some_iff.mp place).1
          refine complete?_unbound coherent inRange bound length place before here
            fun id extended => ?_
          refine induction extended (by rwa [List.length_set]) restSuffix
            (Nat.le_add_left _ _) (isSome_at?_succ (fun other past => ?_) ?_)
          · rw [Binding.at?_set insideBinding, if_neg (Nat.ne_of_gt past)]
            exact before other past
          · rw [Binding.at?_set insideBinding, if_pos rfl, Option.isSome_some]

theorem combinations?_eq (coherent : table.Coherent) (inRange : InRange join)
    (inside : position < join.bodies.length)
    (place : table.derivation? id = some derivation) :
    combinations? table join position id derivation =
      some (join.combinations table position id derivation) := by
  have arity : join.arities[position]? = some (join.arityAt position) := by
    have known : position < join.arities.length := inRange.arities ▸ inside
    simp [Join.arityAt, known]
  have slots :
      position < (List.replicate join.bodies.length (none : Option DerivationId)).length := by
    simpa using inside
  have bound : Bound table ((List.replicate join.bodies.length none).set position (some id)) := by
    refine Bound.set (fun other otherId found => ?_) slots place
    simp [Binding.at?, List.getElem?_replicate] at found
    split at found <;> simp at found
  have whole := complete?_eq coherent inRange join.bodies bound (by simp) List.drop_zero
    (Nat.le_refl _) (by simp)
  unfold combinations? Join.combinations
  rw [arity, modify?_const slots]
  simp only [Option.bind_eq_bind, Option.bind_some, linksHold?_eq bound, whole]
  split
  · rfl
  · cases join.linksHold table ((List.replicate join.bodies.length none).set position (some id)) <;>
      rfl

theorem assemble?_eq {combination : List DerivationId} {bodies : List Derivation}
    (holds : table.Holds combination bodies) :
    assemble? table join combination = some (join.assemble? table combination) := by
  have bound : Bound table (combination.map some) := by
    intro position id found
    rw [Binding.at?_map_some] at found
    obtain ⟨body, _, place⟩ := holds.of_id found
    exact ⟨body, place⟩
  have each : ∀ chain ∈ join.wiring, chainSpan? table (combination.map some) chain =
      some (Join.chainSpan? table (combination.map some) chain) := by
    intro chain _
    rw [chainSpan?, Join.chainSpan?]
    cases chain.head? with
    | none => rfl
    | some first =>
        cases chain.getLast? with
        | none => rfl
        | some last =>
            simp only [segment?_eq bound]
            rfl
  rw [assemble?, mapM_eq_some each, Option.map_some, List.mapM_map]
  rfl

end JoinsEq

/-! ## Checked steps do what steps do -/

section CandidatesEq

variable {graph : Graph} {program : Program} {file : JoinFile} {table : DerivationTable}
  {id : DerivationId} {derivation : Derivation}

theorem ofPrepends?_eq : ofPrepends? graph program id derivation =
    some (Candidate.ofPrepends graph program id derivation) := by
  refine gather_eq_some fun step _ => ?_
  cases found : derivation.segments[step.index]? with
  | none => rfl
  | some span =>
      refine mapM_eq_some fun source _ => ?_
      rw [modify?_eq found]
      rfl

theorem ofAppends?_eq : ofAppends? graph program id derivation =
    some (Candidate.ofAppends graph program id derivation) := by
  refine gather_eq_some fun step _ => ?_
  cases found : derivation.segments[step.index]? with
  | none => rfl
  | some span =>
      refine mapM_eq_some fun target _ => ?_
      rw [modify?_eq found]
      rfl

theorem ofInsertions?_eq : ofInsertions? graph program id derivation =
    some (Candidate.ofInsertions graph program id derivation) := by
  refine gather_eq_some fun step _ => ?_
  by_cases short : derivation.segments.length < step.index
  · rw [if_pos short, if_pos short]
  · rw [if_neg short, if_neg short]
    refine mapM_eq_some fun edge _ => ?_
    rw [insert?, if_pos (Nat.le_of_not_lt short)]
    rfl

private theorem ofJoin?_eq (coherent : table.Coherent)
    (place : table.derivation? id = some derivation) {join : Join} {position : Nat}
    (inRange : InRange join) (body : join.bodies[position]? = some derivation.nonterminal) :
    ofJoin? table id derivation (join, position) =
      some ((join.combinations table position id derivation).filterMap
        (join.assemble? table)) := by
  have inside := (List.getElem?_eq_some_iff.mp body).1
  rw [ofJoin?, combinations?_eq coherent inRange inside place, List.filterMap_eq_flatMap_toList]
  refine gather_eq_some fun combination combined => ?_
  obtain ⟨bodies, holds, _⟩ := Join.combinations_sound coherent place body combined
  rw [assemble?_eq holds, Option.map_some]

/-- Joins with links and arities for their bodies stay in range, whichever of their bodies the
derivation is. -/
theorem ofJoins?_eq (coherent : table.Coherent)
    (place : table.derivation? id = some derivation)
    (resolves : JoinFile.Resolves file.joins file.uses program.joins)
    (wellFiled : program.WellFiled) (inRange : ∀ join, program.Uses join → InRange join) :
    ofJoins? file table id derivation =
      some (Candidate.ofJoins program table id derivation) := by
  have byNumber : ofJoins? file table id derivation =
      gather (program.joins.row derivation.nonterminal).toList (ofJoin? table id derivation) := by
    have asJoins : ofJoins? file table id derivation =
        (((file.uses.row derivation.nonterminal).toList.map
          (JoinFile.resolve? file.joins)).mapM (fun use : Option (Join × Nat) =>
            use.bind (ofJoin? table id derivation))).map List.flatten := by
      rw [List.mapM_map]
      rfl
    rw [asJoins, resolves, List.mapM_map]
    rfl
  rw [byNumber]
  refine gather_eq_some fun use member => ?_
  have filed := Array.mem_toList_iff.mp member
  have used : program.Uses use.1 := ⟨_, _, filed⟩
  exact ofJoin?_eq coherent place (inRange use.1 used) ((wellFiled.filed _ _ _ used).mp filed)

theorem all?_eq (coherent : table.Coherent) (place : table.derivation? id = some derivation)
    (resolves : JoinFile.Resolves file.joins file.uses program.joins)
    (wellFiled : program.WellFiled) (inRange : ∀ join, program.Uses join → InRange join) :
    all? graph program file table id derivation =
      some (Candidate.all graph program table id derivation) := by
  rw [all?, ofPrepends?_eq, ofAppends?_eq, ofInsertions?_eq,
    ofJoins?_eq coherent place resolves wellFiled inRange]
  rfl

theorem noteAnswer?_eq (start : NonterminalId) (state : RunState) :
    noteAnswer? start state id derivation =
      some (RunState.noteAnswer start state id derivation) := by
  obtain ⟨nonterminal, segments⟩ := derivation
  match segments with
  | [] => simp [noteAnswer?, RunState.noteAnswer, Derivation.dimension]
  | [span] =>
      by_cases same : nonterminal = start
      · simp [noteAnswer?, RunState.noteAnswer, Derivation.dimension, same]
      · simp [noteAnswer?, RunState.noteAnswer, same]
  | first :: second :: rest =>
      simp [noteAnswer?, RunState.noteAnswer, Derivation.dimension]

end CandidatesEq

section Steps

variable {problem : Problem} {file : JoinFile} {state : RunState}

theorem advance?_eq (resolves : JoinFile.Resolves file.joins file.uses problem.program.joins)
    (wellFiled : problem.program.WellFiled)
    (inRange : ∀ join, problem.program.Uses join → InRange join)
    (coherent : state.table.Coherent) :
    advance? problem file state = some (state.advance problem) := by
  unfold advance?
  by_cases finished : state.isFinished = true
  · rw [if_pos finished, RunState.advance_of_finished finished]
  · obtain ⟨derivation, found⟩ := RunState.exists_of_not_finished finished
    rw [if_neg finished, found, RunState.advance_eq found]
    simp only [Option.bind_eq_bind, Option.bind_some, noteAnswer?_eq,
      all?_eq coherent found resolves wellFiled inRange]
    rfl

theorem run?_eq (indexed : problem.graph.Indexed)
    (resolves : JoinFile.Resolves file.joins file.uses problem.program.joins)
    (wellFiled : problem.program.WellFiled)
    (inRange : ∀ join, problem.program.Uses join → InRange join)
    (valid : state.Valid problem) (steps : Nat) :
    run? problem file steps state = some ((RunState.advance problem)^[steps] state) := by
  induction steps generalizing state with
  | zero => rfl
  | succ steps induction =>
      rw [run?, advance?_eq resolves wellFiled inRange valid.sound.coherent, Option.bind_some,
        Function.iterate_succ_apply]
      exact induction (valid.iterate indexed wellFiled 1)

theorem inRange_of_uses {program : Program} {nonterminals : Nonterminals} {grammar : Grammar}
    (represents : program.Represents nonterminals grammar) {join : Join}
    (used : program.Uses join) : InRange join := by
  obtain ⟨body, position, filed⟩ := used
  obtain ⟨rule, _, proper, numbers, _⟩ := (represents.joins _ _ _).mp filed
  have length := numbers.length_bodies
  refine ⟨by rw [numbers.arities, length]; simp, fun link member => ?_⟩
  obtain ⟨left, right⟩ := rule.mem_flatten_of_mem_links (numbers.links ▸ member)
  rw [length]
  exact ⟨proper.body_lt _ left, proper.body_lt _ right⟩

theorem run?_initial {nonterminals : Nonterminals} {grammar : Grammar}
    (indexed : problem.graph.Indexed)
    (resolves : JoinFile.Resolves file.joins file.uses problem.program.joins)
    (represents : problem.program.Represents nonterminals grammar) (options : SolveOptions)
    (steps : Nat) :
    run? problem file steps (problem.initial nonterminals options) =
      some ((RunState.advance problem)^[steps] (problem.initial nonterminals options)) :=
  run?_eq indexed resolves represents.wellFiled (fun _ => inRange_of_uses represents)
    (RunState.valid_initial represents.wellFiled _ options) steps

end Steps

end Checked

end GrammarReach
