import GrammarReach.Graph.Components
import GrammarReach.Proofs.Graph.ComponentSearch
import Mathlib.Data.List.Induction

/-!
# Reachability through components

The components are numbered in the order in which the search completes them, and no edge
leads to a larger number.  When the row of a component is put together, the rows of all
other components that it leads to are therefore there already.  A row that is taken over
holds all that its components reach, so that a successor that is in the row already adds
nothing.
-/

namespace GrammarReach

namespace BitMatrix

private theorem testBit_foldl_bits (members : List Nat) (bits index : Nat) :
    (members.foldl (fun bits member => bits ||| 1 <<< member) bits).testBit
        index = (bits.testBit index || decide (index ∈ members)) := by
  induction members generalizing bits with
  | nil => simp
  | cons member members induction =>
      rw [List.foldl_cons, induction, Nat.testBit_or, Nat.shiftLeft_eq,
        Nat.one_mul, Nat.testBit_two_pow]
      by_cases same : member = index
      · simp [same]
      · have different : index ≠ member := fun equality => same equality.symm
        simp [same, different]

theorem testBit_bitsOf (members : List Nat) (index : Nat) :
    (bitsOf members).testBit index = decide (index ∈ members) := by
  simp [bitsOf, testBit_foldl_bits]

end BitMatrix

/-! ## Ranked components -/

namespace Ranked

variable {graph : Graph} {components : List (List Vertex)} {members : List Vertex}
  {number : Nat}

/-- A component of a ranked list has a member, its members reach each other, and their
successors are in components up to it. -/
theorem facts (ranked : Ranked graph components) (found : components[number]? = some members) :
    members ≠ [] ∧
      (∀ first ∈ members, ∀ second ∈ members, graph.Reaches first second) ∧
      ∀ member ∈ members, ∀ next ∈ graph.successors member,
        ∃ lower others, lower ≤ number ∧ components[lower]? = some others ∧ next ∈ others := by
  induction ranked with
  | none => simp at found
  | @complete components last _ nonempty connected closed induction =>
      have inside := (List.getElem?_eq_some_iff.mp found).1
      by_cases earlier : number < components.length
      · rw [List.getElem?_append_left earlier] at found
        obtain ⟨someMember, mutually, successors⟩ := induction found
        refine ⟨someMember, mutually, fun member inMembers next successor => ?_⟩
        obtain ⟨lower, others, le, place, inOthers⟩ := successors member inMembers next successor
        have before := (List.getElem?_eq_some_iff.mp place).1
        exact ⟨lower, others, le, (List.getElem?_append_left before).trans place, inOthers⟩
      · have same : number = components.length := by
          simp only [List.length_append, List.length_singleton] at inside
          omega
        subst same
        obtain rfl : last = members := by simpa using found
        refine ⟨nonempty, connected, fun member inMembers next successor => ?_⟩
        rcases closed member inMembers next successor with settled | inside
        · obtain ⟨others, listed, inOthers⟩ := List.mem_flatten.mp settled
          obtain ⟨lower, before, place⟩ := List.getElem_of_mem listed
          refine ⟨lower, others, Nat.le_of_lt before, ?_, inOthers⟩
          rw [List.getElem?_append_left before, List.getElem?_eq_getElem before, place]
        · exact ⟨_, last, Nat.le_refl _, by simp, inside⟩

end Ranked

namespace Components

variable {graph : Graph}

/-- The components in the order in which the search completes them. -/
abbrev listed (graph : Graph) : List (List Vertex) :=
  (ComponentSearch.ofGraph graph).components.toList

/-! ## Numbers of vertices -/

theorem getElem?_numberMembers {components : List (List Vertex)}
    (distinct : components.flatten.Nodup) {vertex : Vertex} {number : Nat} :
    (numberMembers components)[vertex]? = some number ↔
      ∃ members, components[number]? = some members ∧ vertex ∈ members := by
  induction components using List.reverseRecOn with
  | nil => simp [numberMembers]
  | append_singleton components last induction =>
      rw [List.flatten_append, List.flatten_singleton] at distinct
      obtain ⟨earlier, _, apart⟩ := List.nodup_append.mp distinct
      have unfolded : numberMembers (components ++ [last]) =
          last.foldl (fun found member => found.insert member components.length)
            (numberMembers components) := by
        simp [numberMembers, List.zipIdx_append]
      rw [unfolded, getElem?_foldl_insert_same]
      by_cases inLast : vertex ∈ last
      · rw [if_pos inLast]
        constructor
        · rintro ⟨⟩
          exact ⟨last, by simp, inLast⟩
        · rintro ⟨members, found, member⟩
          by_cases before : number < components.length
          · rw [List.getElem?_append_left before] at found
            have settled := List.mem_flatten.mpr ⟨members, List.mem_of_getElem? found, member⟩
            exact absurd rfl (apart vertex settled vertex inLast)
          · have inside := (List.getElem?_eq_some_iff.mp found).1
            simp only [List.length_append, List.length_singleton] at inside
            exact congrArg some (by omega)
      · rw [if_neg inLast, induction earlier]
        constructor
        · rintro ⟨members, found, member⟩
          have before := (List.getElem?_eq_some_iff.mp found).1
          exact ⟨members, (List.getElem?_append_left before).trans found, member⟩
        · rintro ⟨members, found, member⟩
          by_cases before : number < components.length
          · rw [List.getElem?_append_left before] at found
            exact ⟨members, found, member⟩
          · have inside := (List.getElem?_eq_some_iff.mp found).1
            simp only [List.length_append, List.length_singleton] at inside
            obtain rfl : number = components.length := by omega
            obtain rfl : last = members := by simpa using found
            exact absurd member inLast

theorem component?_eq_some_iff (built : graph.Built) {vertex : Vertex} {number : Nat} :
    (ofGraph graph).component? vertex = some number ↔
      ∃ members, (listed graph)[number]? = some members ∧ vertex ∈ members :=
  getElem?_numberMembers
    ((ComponentSearch.perm_settled_ofGraph built).nodup_iff.mpr graph.nodup_vertexList)

theorem exists_component_iff (built : graph.Built) {vertex : Vertex} :
    (∃ component, (ofGraph graph).component? vertex = some component) ↔
      vertex ∈ graph.vertices := by
  rw [← Graph.mem_vertexList, ← (ComponentSearch.perm_settled_ofGraph built).mem_iff]
  simp only [component?_eq_some_iff built, ComponentSearch.settled, List.mem_flatten]
  constructor
  · rintro ⟨component, members, found, member⟩
    exact ⟨members, List.mem_of_getElem? found, member⟩
  · rintro ⟨members, inside, member⟩
    obtain ⟨component, found⟩ := List.getElem?_of_mem inside
    exact ⟨component, members, found, member⟩

section Numbers

variable {first second : Vertex} {number other : Nat}

theorem reaches_of_same (built : graph.Built)
    (firstFound : (ofGraph graph).component? first = some number)
    (secondFound : (ofGraph graph).component? second = some number) :
    graph.Reaches first second := by
  obtain ⟨members, found, member⟩ := (component?_eq_some_iff built).mp firstFound
  obtain ⟨others, sameFound, otherMember⟩ := (component?_eq_some_iff built).mp secondFound
  obtain rfl : members = others := Option.some.inj (found.symm.trans sameFound)
  exact ((ComponentSearch.ranked_ofGraph built).facts found).2.1 first member second otherMember

theorem exists_number_of_successor (built : graph.Built)
    (found : (ofGraph graph).component? first = some number)
    (successor : second ∈ graph.successors first) :
    ∃ lower ≤ number, (ofGraph graph).component? second = some lower := by
  obtain ⟨members, place, member⟩ := (component?_eq_some_iff built).mp found
  obtain ⟨lower, others, le, lowerPlace, inOthers⟩ :=
    ((ComponentSearch.ranked_ofGraph built).facts place).2.2 first member second successor
  exact ⟨lower, le, (component?_eq_some_iff built).mpr ⟨others, lowerPlace, inOthers⟩⟩

theorem number_le_of_reaches (built : graph.Built) (reaches : graph.Reaches first second)
    (found : (ofGraph graph).component? first = some number)
    (otherFound : (ofGraph graph).component? second = some other) : other ≤ number := by
  have below : ∃ lower ≤ number, (ofGraph graph).component? second = some lower := by
    refine reaches.transport
      (fun vertex => ∃ lower ≤ number, (ofGraph graph).component? vertex = some lower) ?_
      ⟨number, Nat.le_refl _, found⟩
    rintro edge inside ⟨middle, le, middleFound⟩
    have successor := built.indexed.mem_successors.mpr ⟨edge, inside, rfl, rfl⟩
    obtain ⟨lower, lowerLe, lowerFound⟩ :=
      exists_number_of_successor built middleFound successor
    exact ⟨lower, Nat.le_trans lowerLe le, lowerFound⟩
  obtain ⟨lower, le, lowerFound⟩ := below
  exact Option.some.inj (otherFound.symm.trans lowerFound) ▸ le

end Numbers

/-! ## Rows -/

/-- A vertex of the first component reaches a vertex of the second one. -/
def Leads (graph : Graph) (source target : Nat) : Prop :=
  ∃ first second, (ofGraph graph).component? first = some source ∧
    (ofGraph graph).component? second = some target ∧ graph.Reaches first second

namespace Leads

variable {source middle target : Nat}

theorem trans (built : graph.Built) (before : Leads graph source middle)
    (behind : Leads graph middle target) : Leads graph source target := by
  obtain ⟨first, second, firstFound, secondFound, reaches⟩ := before
  obtain ⟨third, fourth, thirdFound, fourthFound, onward⟩ := behind
  exact ⟨first, fourth, firstFound, fourthFound,
    (reaches.trans (reaches_of_same built secondFound thirdFound)).trans onward⟩

theorem reaches (built : graph.Built) {first second : Vertex}
    (leads : Leads graph source target)
    (firstFound : (ofGraph graph).component? first = some source)
    (secondFound : (ofGraph graph).component? second = some target) :
    graph.Reaches first second := by
  obtain ⟨third, fourth, thirdFound, fourthFound, onward⟩ := leads
  exact ((reaches_of_same built firstFound thirdFound).trans onward).trans
    (reaches_of_same built fourthFound secondFound)

end Leads

/-- The rows of the components up to a number say what these lead to. -/
structure RowsExact (graph : Graph) (reach : BitMatrix) (count : Nat) : Prop where
  size : reach.rows.size = count
  holds : ∀ source < count, ∀ target,
    (reach.row source).testBit target = true ↔ Leads graph source target

/-- The row of a component while it is put together: it holds only what the component leads
to, and all that other components in it lead to. -/
structure RowSound (graph : Graph) (component row : Nat) : Prop where
  self : row.testBit component = true
  leads : ∀ target, row.testBit target = true → Leads graph component target
  closed : ∀ middle target, row.testBit middle = true → middle ≠ component →
    Leads graph middle target → row.testBit target = true

section Rows

variable {reach : BitMatrix} {component row : Nat} {members : List Vertex}

/-- Taking over the row of a successor puts the component of the successor into the row. -/
theorem RowSound.takeOver (built : graph.Built) (exact : RowsExact graph reach component)
    (sound : RowSound graph component row) {member next : Vertex}
    (found : (ofGraph graph).component? member = some component)
    (successor : next ∈ graph.successors member) :
    RowSound graph component (takeOver (ofGraph graph).componentOf reach row next) ∧
      (∀ target, row.testBit target = true →
        (takeOver (ofGraph graph).componentOf reach row next).testBit target = true) ∧
      ∀ number, (ofGraph graph).component? next = some number →
        (takeOver (ofGraph graph).componentOf reach row next).testBit number = true := by
  obtain ⟨number, le, nextFound⟩ := exists_number_of_successor built found successor
  have looked : (ofGraph graph).componentOf[next]? = some number := nextFound
  have onlyNumber : ∀ other, (ofGraph graph).component? next = some other → other = number :=
    fun other otherFound => Option.some.inj (otherFound.symm.trans nextFound)
  simp only [Components.takeOver, looked, exact.size]
  by_cases skipped : number = component ∨ row.testBit number = true
  · rw [if_pos skipped]
    refine ⟨sound, fun _ old => old, fun other otherFound => ?_⟩
    rw [onlyNumber other otherFound]
    exact skipped.elim (fun same => same ▸ sound.self) id
  · rw [if_neg skipped]
    obtain ⟨different, _⟩ := not_or.mp skipped
    have taken := exact.holds number (Nat.lt_of_le_of_ne le different)
    have toNext : Leads graph component number :=
      ⟨member, next, found, nextFound, .of_successor built.indexed successor⟩
    refine ⟨⟨by simp [sound.self], ?_, ?_⟩, fun target old => by simp [old], ?_⟩
    · intro target bit
      rcases (Bool.or_eq_true _ _).mp (Nat.testBit_or .. ▸ bit) with old | new
      · exact sound.leads target old
      · exact toNext.trans built ((taken target).mp new)
    · intro middle target bit otherwise leads
      rw [Nat.testBit_or, Bool.or_eq_true] at bit ⊢
      rcases bit with old | new
      · exact .inl (sound.closed middle target old otherwise leads)
      · exact .inr ((taken target).mpr (((taken middle).mp new).trans built leads))
    · intro other otherFound
      rw [onlyNumber other otherFound, Nat.testBit_or, Bool.or_eq_true]
      exact .inr ((taken number).mpr ⟨next, next, nextFound, nextFound, .refl graph next⟩)

/-- After all successors the row holds their components. -/
theorem RowSound.foldl (built : graph.Built) (exact : RowsExact graph reach component)
    (successors : List Vertex) (sound : RowSound graph component row)
    (inside : ∀ next ∈ successors, ∃ member,
      (ofGraph graph).component? member = some component ∧ next ∈ graph.successors member) :
    RowSound graph component
        (successors.foldl (Components.takeOver (ofGraph graph).componentOf reach) row) ∧
      (∀ target, row.testBit target = true →
        (successors.foldl (Components.takeOver (ofGraph graph).componentOf reach) row).testBit
          target = true) ∧
      ∀ next ∈ successors, ∀ number, (ofGraph graph).component? next = some number →
        (successors.foldl (Components.takeOver (ofGraph graph).componentOf reach) row).testBit
          number = true := by
  induction successors generalizing row with
  | nil => exact ⟨sound, fun _ old => old, by simp⟩
  | cons next successors induction =>
      obtain ⟨member, found, successor⟩ := inside next List.mem_cons_self
      obtain ⟨soundNext, grown, covered⟩ := sound.takeOver built exact found successor
      obtain ⟨soundAll, grownAll, coveredAll⟩ := induction soundNext
        fun other later => inside other (List.mem_cons_of_mem _ later)
      refine ⟨soundAll, fun target old => grownAll target (grown target old), ?_⟩
      intro other listed number numberFound
      rcases List.mem_cons.mp listed with rfl | later
      · exact grownAll number (covered number numberFound)
      · exact coveredAll other later number numberFound

/-- A row that holds the components of all successors holds all that its component leads to. -/
theorem RowSound.complete (built : graph.Built) (sound : RowSound graph component row)
    (covered : ∀ member, (ofGraph graph).component? member = some component →
      ∀ next ∈ graph.successors member, ∀ number,
        (ofGraph graph).component? next = some number → row.testBit number = true)
    {target : Nat} (leads : Leads graph component target) : row.testBit target = true := by
  obtain ⟨first, second, firstFound, secondFound, reaches⟩ := leads
  refine reaches.transport (fun vertex => ∀ number,
    (ofGraph graph).component? vertex = some number → row.testBit number = true) ?_ ?_ target
    secondFound
  · intro edge inside bits number numberFound
    obtain ⟨middle, middleFound⟩ :=
      (exists_component_iff built).mpr (built.closed.source_mem edge inside)
    have successor := built.indexed.mem_successors.mpr ⟨edge, inside, rfl, rfl⟩
    by_cases same : middle = component
    · exact covered edge.source (same ▸ middleFound) edge.target successor number numberFound
    · exact sound.closed middle number (bits middle middleFound) same
        ⟨edge.source, edge.target, middleFound, numberFound, .of_edge inside⟩
  · intro number numberFound
    rw [Option.some.inj (numberFound.symm.trans firstFound)]
    exact sound.self

theorem row_addRow (reach : BitMatrix) (componentOf : Std.TreeMap Vertex Nat)
    (members : List Vertex) (number : Nat) :
    (addRow graph componentOf reach members).row number =
      if number = reach.rows.size then
        (members.flatMap fun member => (graph.successors member).toList).foldl
          (Components.takeOver componentOf reach) (BitMatrix.bitsOf [reach.rows.size])
      else reach.row number := by
  simp only [addRow, BitMatrix.row, Array.getD_eq_getD_getElem?, Array.getElem?_push]
  split <;> simp

/-- The row of the next component is exact when the rows before it are. -/
theorem RowsExact.addRow (built : graph.Built) (exact : RowsExact graph reach component)
    (found : (listed graph)[component]? = some members) :
    RowsExact graph (addRow graph (ofGraph graph).componentOf reach members)
      (component + 1) := by
  let successors := members.flatMap fun member => (graph.successors member).toList
  have numbered : ∀ member, (ofGraph graph).component? member = some component ↔
      member ∈ members := by
    intro member
    rw [component?_eq_some_iff built, found]
    simp
  obtain ⟨someMember, inMembers⟩ := List.exists_mem_of_ne_nil members
    ((ComponentSearch.ranked_ofGraph built).facts found).1
  have first : RowSound graph component (BitMatrix.bitsOf [component]) := by
    have onlySelf : ∀ target, (BitMatrix.bitsOf [component]).testBit target = true ↔
        target = component := by simp [BitMatrix.testBit_bitsOf]
    refine ⟨(onlySelf component).mpr rfl, ?_, ?_⟩
    · intro target bit
      have memberFound := (numbered someMember).mpr inMembers
      rw [(onlySelf target).mp bit]
      exact ⟨someMember, someMember, memberFound, memberFound, .refl graph someMember⟩
    · exact fun middle _ bit otherwise => absurd ((onlySelf middle).mp bit) otherwise
  obtain ⟨sound, _, covered⟩ := first.foldl built exact successors fun next later => by
    obtain ⟨member, inside, successor⟩ := List.mem_flatMap.mp later
    exact ⟨member, (numbered member).mpr inside, Array.mem_toList_iff.mp successor⟩
  refine ⟨by simp [Components.addRow, exact.size], fun source below target => ?_⟩
  rw [row_addRow, exact.size]
  by_cases last : source = component
  · rw [if_pos last, last]
    refine ⟨sound.leads target, sound.complete built fun member memberFound next successor => ?_⟩
    exact covered next (List.mem_flatMap.mpr ⟨member, (numbered member).mp memberFound,
      Array.mem_toList_iff.mpr successor⟩)
  · rw [if_neg last]
    exact exact.holds source (by omega) target

theorem rowsExact_take (built : graph.Built) (count : Nat) (le : count ≤ (listed graph).length) :
    RowsExact graph (rowsOf graph (ofGraph graph).componentOf ((listed graph).take count))
      count := by
  induction count with
  | zero => exact ⟨rfl, by simp⟩
  | succ count induction =>
      have found : (listed graph)[count]? = some (listed graph)[count] :=
        List.getElem?_eq_getElem le
      have earlier := induction (Nat.le_of_succ_le le)
      rw [List.take_add_one, found, rowsOf, List.foldl_append]
      exact earlier.addRow built found

theorem rowsExact_ofGraph (built : graph.Built) :
    RowsExact graph (ofGraph graph).reach (listed graph).length := by
  have all := rowsExact_take built _ (Nat.le_refl _)
  rwa [List.take_length] at all

end Rows

/-! ## Reachability between vertices -/

section Reachability

variable {start stop : Vertex}

/-- One vertex reaches another one when both are in the graph and a walk leads from the one
to the other. -/
theorem reaches_eq_true_iff (built : graph.Built) :
    (ofGraph graph).reaches start stop = true ↔
      start ∈ graph.vertices ∧ stop ∈ graph.vertices ∧ graph.Reaches start stop := by
  rw [← exists_component_iff built, ← exists_component_iff built]
  cases startFound : (ofGraph graph).component? start with
  | none => simp [reaches, startFound]
  | some source =>
      cases stopFound : (ofGraph graph).component? stop with
      | none => simp [reaches, startFound, stopFound]
      | some target =>
          obtain ⟨members, place, _⟩ := (component?_eq_some_iff built).mp startFound
          have inside := (List.getElem?_eq_some_iff.mp place).1
          have row := (rowsExact_ofGraph built).holds source inside target
          simp only [reaches, startFound, stopFound, componentReaches, BitMatrix.holds, row]
          constructor
          · intro leads
            exact ⟨⟨source, rfl⟩, ⟨target, rfl⟩, leads.reaches built startFound stopFound⟩
          · rintro ⟨_, _, walks⟩
            exact ⟨start, stop, startFound, stopFound, walks⟩

theorem reaches_refl (built : graph.Built) (member : start ∈ graph.vertices) :
    (ofGraph graph).reaches start start = true :=
  (reaches_eq_true_iff built).mpr ⟨member, member, .refl graph start⟩

theorem reaches_iff (built : graph.Built) (member : start ∈ graph.vertices) :
    (ofGraph graph).reaches start stop = true ↔ graph.Reaches start stop := by
  rw [reaches_eq_true_iff built]
  refine ⟨fun reached => reached.2.2, fun walks => ⟨member, ?_, walks⟩⟩
  exact walks.transport (· ∈ graph.vertices)
    (fun edge inside _ => built.closed.target_mem edge inside) member

theorem reaches_of_joins (built : graph.Built) {path : List Edge}
    (joins : Joins start path stop) (inside : ∀ edge ∈ path, edge ∈ graph.edges)
    (member : start ∈ graph.vertices) : (ofGraph graph).reaches start stop = true :=
  (reaches_iff built member).mpr ⟨path, joins, inside⟩

theorem componentReaches_eq {source target : Vertex} {sourceComponent targetComponent : Nat}
    (sourceFound : (ofGraph graph).component? source = some sourceComponent)
    (targetFound : (ofGraph graph).component? target = some targetComponent) :
    (ofGraph graph).componentReaches sourceComponent targetComponent =
      (ofGraph graph).reaches source target := by
  simp [reaches, sourceFound, targetFound]

end Reachability

/-! ## The index of a graph -/

/-- The search lists every vertex in one component.  The index numbers the components in the
order of this list, two vertices have one number when each reaches the other, and an edge
between two components leads to the smaller number.  When the row of a component is put
together, there is a row for each other component that its members lead to.  In the end the
index tells which vertices reach which. -/
theorem ofGraph_exact {graph : Graph} (built : graph.Built) :
    (listed graph).flatten.Perm graph.vertexList ∧
    (∀ members ∈ listed graph, members ≠ []) ∧
    (ofGraph graph).size = (listed graph).length ∧
    (∀ vertex number, (ofGraph graph).component? vertex = some number ↔
      ∃ members, (listed graph)[number]? = some members ∧ vertex ∈ members) ∧
    (∀ first ∈ graph.vertices, ∀ second ∈ graph.vertices,
      ((ofGraph graph).component? first = (ofGraph graph).component? second ↔
        graph.Reaches first second ∧ graph.Reaches second first)) ∧
    (∀ edge ∈ graph.edges, ∃ source target,
      (ofGraph graph).component? edge.source = some source ∧
      (ofGraph graph).component? edge.target = some target ∧
      (source ≠ target → target < source)) ∧
    (∀ number members, (listed graph)[number]? = some members →
      let reach := rowsOf graph (ofGraph graph).componentOf ((listed graph).take number)
      reach.rows.size = number ∧
      ∀ member ∈ members, ∀ next ∈ graph.successors member, ∃ lower,
        (ofGraph graph).component? next = some lower ∧
        (lower ≠ number → lower < reach.rows.size)) ∧
    (∀ start stop, (ofGraph graph).reaches start stop = true ↔
      start ∈ graph.vertices ∧ stop ∈ graph.vertices ∧ graph.Reaches start stop) := by
  have ranked := ComponentSearch.ranked_ofGraph built
  refine ⟨ComponentSearch.perm_settled_ofGraph built, ?_, (rowsExact_ofGraph built).size,
    fun _ _ => component?_eq_some_iff built, ?_, ?_, ?_, fun _ _ => reaches_eq_true_iff built⟩
  · intro members inside
    obtain ⟨number, found⟩ := List.getElem?_of_mem inside
    exact (ranked.facts found).1
  · intro first firstMember second secondMember
    obtain ⟨number, firstFound⟩ := (exists_component_iff built).mpr firstMember
    obtain ⟨other, secondFound⟩ := (exists_component_iff built).mpr secondMember
    rw [firstFound, secondFound]
    constructor
    · rintro ⟨⟩
      exact ⟨reaches_of_same built firstFound secondFound,
        reaches_of_same built secondFound firstFound⟩
    · rintro ⟨forth, back⟩
      have down := number_le_of_reaches built forth firstFound secondFound
      have up := number_le_of_reaches built back secondFound firstFound
      exact congrArg some (Nat.le_antisymm up down)
  · intro edge inside
    obtain ⟨source, found⟩ :=
      (exists_component_iff built).mpr (built.closed.source_mem edge inside)
    obtain ⟨target, le, targetFound⟩ := exists_number_of_successor built found
      (built.indexed.mem_successors.mpr ⟨edge, inside, rfl, rfl⟩)
    exact ⟨source, target, found, targetFound, fun different => by omega⟩
  · intro number members found
    have inside := (List.getElem?_eq_some_iff.mp found).1
    have size := (rowsExact_take built number (Nat.le_of_lt inside)).size
    refine ⟨size, fun member inMembers next successor => ?_⟩
    obtain ⟨lower, le, lowerFound⟩ := exists_number_of_successor built
      ((component?_eq_some_iff built).mpr ⟨members, found, inMembers⟩) successor
    exact ⟨lower, lowerFound, fun different => by omega⟩

/-- A cycle of three vertices from which an edge leads to a fourth one. -/
def cycleWithTail : Graph :=
  .ofEdges [⟨0, 1, "a"⟩, ⟨1, 2, "a"⟩, ⟨2, 0, "a"⟩, ⟨2, 3, "a"⟩]

theorem ofGraph_exact_cycleWithTail :
    cycleWithTail.Built ∧ listed cycleWithTail = [[3], [2, 1, 0]] ∧
      cycleWithTail.Reaches 1 3 ∧ ¬ cycleWithTail.Reaches 3 0 := by
  have built : cycleWithTail.Built := Graph.built_ofEdges _
  obtain ⟨_, _, _, _, _, _, _, exact⟩ := ofGraph_exact built
  refine ⟨built, by decide +kernel, ((exact 1 3).mp (by decide +kernel)).2.2, fun reaches => ?_⟩
  have found := (exact 3 0).mpr ⟨by decide +kernel, by decide +kernel, reaches⟩
  exact absurd found (by decide +kernel)

end Components

end GrammarReach
