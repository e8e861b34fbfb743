import GrammarReach.Graph.Pieces
import GrammarReach.Proofs.Graph.LinkedEdges
import GrammarReach.Proofs.Graph.Sizes

/-!
# The search for pieces

From a vertex that was not seen before, the search numbers the vertices that edges connect
with it, in any directions, and no others.  So the pieces have the numbers of their
smallest vertices in ascending order.
-/

namespace GrammarReach

namespace Graph

/-- Edges of the graph lead from one vertex to the other, in any directions. -/
def Connected (graph : Graph) : Vertex → Vertex → Prop :=
  Linked graph.allEdges

theorem mem_neighbours {graph : Graph} (built : graph.Built) {vertex next : Vertex} :
    next ∈ graph.neighbours vertex ↔ Touches graph.allEdges vertex next := by
  rw [neighbours, List.mem_append, Array.mem_toList_iff, Array.mem_toList_iff,
    built.indexed.mem_successors, built.indexed.mem_predecessors]
  constructor
  · rintro (⟨edge, member, source, target⟩ | ⟨edge, member, target, source⟩)
    · exact ⟨edge, member, .inl ⟨source, target⟩⟩
    · exact ⟨edge, member, .inr ⟨source, target⟩⟩
  · rintro ⟨edge, member, ⟨source, target⟩ | ⟨source, target⟩⟩
    · exact .inl ⟨edge, member, source, target⟩
    · exact .inr ⟨edge, member, target, source⟩

theorem Connected.mem_vertices {graph : Graph} (built : graph.Built) {vertex other : Vertex}
    (connected : graph.Connected vertex other) (member : vertex ∈ graph.vertices) :
    other ∈ graph.vertices := by
  induction connected with
  | refl => exact member
  | tail _ step _ =>
      obtain ⟨edge, inside, ⟨_, rfl⟩ | ⟨rfl, _⟩⟩ := step
      · exact built.closed.target_mem edge inside
      · exact built.closed.source_mem edge inside

theorem vertexList_ascending (graph : Graph) : graph.vertexList.Pairwise (· < ·) :=
  Std.TreeSet.ordered_toList.imp fun below => Nat.compare_eq_lt.mp below

end Graph

namespace PieceSearch

variable {graph : Graph}

/-! ## Seeing neighbours -/

/-- What seeing some vertices changes: the fresh ones among them begin to wait. -/
structure Sees (search : PieceSearch) (vertices fresh : List Vertex) (later : PieceSearch) :
    Prop where
  waiting : later.waiting = fresh ++ search.waiting
  nodup : fresh.Nodup
  mem_fresh : ∀ vertex, vertex ∈ fresh ↔ vertex ∈ vertices ∧ vertex ∉ search.seen
  mem_seen : ∀ vertex, vertex ∈ later.seen ↔ vertex ∈ search.seen ∨ vertex ∈ vertices
  pieceOf : later.pieceOf = search.pieceOf
  found : later.found = search.found

private theorem see_of_seen {search : PieceSearch} {vertex : Vertex}
    (seen : vertex ∈ search.seen) : search.see vertex = search :=
  if_pos seen

private theorem see_of_unseen {search : PieceSearch} {vertex : Vertex}
    (unseen : vertex ∉ search.seen) :
    search.see vertex = { search with
      seen := search.seen.insert vertex
      waiting := vertex :: search.waiting } :=
  if_neg unseen

theorem exists_sees (search : PieceSearch) (vertices : List Vertex) :
    ∃ fresh, Sees search vertices fresh (vertices.foldl see search) := by
  induction vertices generalizing search with
  | nil => exact ⟨[], by simp, by simp, by simp, by simp, rfl, rfl⟩
  | cons first vertices induction =>
      rw [List.foldl_cons]
      by_cases seen : first ∈ search.seen
      · rw [see_of_seen seen]
        obtain ⟨fresh, sees⟩ := induction search
        refine ⟨fresh, { sees with mem_fresh := fun vertex => ?_, mem_seen := fun vertex => ?_ }⟩
        · rw [sees.mem_fresh, List.mem_cons]
          refine and_congr_left fun unseen => ?_
          have different : vertex ≠ first := fun same => unseen (same ▸ seen)
          simp [different]
        · rw [sees.mem_seen, List.mem_cons]
          constructor
          · exact Or.imp_right .inr
          · rintro (old | rfl | new)
            · exact .inl old
            · exact .inl seen
            · exact .inr new
      · rw [see_of_unseen seen]
        obtain ⟨fresh, sees⟩ := induction { search with
          seen := search.seen.insert first
          waiting := first :: search.waiting }
        have inserted : ∀ vertex, vertex ∈ search.seen.insert first ↔
            first = vertex ∨ vertex ∈ search.seen := by
          simp
        have isFresh : ∀ vertex, vertex ∈ fresh ↔
            vertex ∈ vertices ∧ first ≠ vertex ∧ vertex ∉ search.seen := by
          intro vertex
          rw [sees.mem_fresh, inserted, not_or]
        refine ⟨fresh ++ [first], ?_, ?_, fun vertex => ?_, fun vertex => ?_, sees.pieceOf,
          sees.found⟩
        · rw [sees.waiting, List.append_assoc]
          rfl
        · refine List.nodup_append.mpr ⟨sees.nodup, by simp, ?_⟩
          rintro vertex member _ last rfl
          exact ((isFresh vertex).mp member).2.1 (List.mem_singleton.mp last).symm
        · rw [List.mem_append, isFresh, List.mem_singleton, List.mem_cons]
          constructor
          · rintro (⟨member, _, unseen⟩ | rfl)
            · exact ⟨.inr member, unseen⟩
            · exact ⟨.inl rfl, seen⟩
          · rintro ⟨rfl | member, unseen⟩
            · exact .inr rfl
            · by_cases same : first = vertex
              · exact .inr same.symm
              · exact .inl ⟨member, same, unseen⟩
        · rw [sees.mem_seen, inserted, List.mem_cons, eq_comm (a := first), or_assoc,
            or_left_comm]

/-- What the next step changes: the vertex that began to wait last is numbered, and the
neighbours of it that were not seen before begin to wait. -/
structure StepsTo (graph : Graph) (search : PieceSearch) (current : Vertex)
    (rest fresh : List Vertex) (later : PieceSearch) : Prop where
  before : search.waiting = current :: rest
  waiting : later.waiting = fresh ++ rest
  nodup : fresh.Nodup
  mem_fresh : ∀ vertex,
    vertex ∈ fresh ↔ Touches graph.allEdges current vertex ∧ vertex ∉ search.seen
  mem_seen : ∀ vertex,
    vertex ∈ later.seen ↔ vertex ∈ search.seen ∨ Touches graph.allEdges current vertex
  pieceOf : later.pieceOf = search.pieceOf.insert current search.found
  found : later.found = search.found

theorem exists_stepsTo (built : graph.Built) {search : PieceSearch} {current : Vertex}
    {rest : List Vertex} (waiting : search.waiting = current :: rest) :
    ∃ fresh, StepsTo graph search current rest fresh (search.step graph) := by
  have eq : search.step graph = (graph.neighbours current).foldl see
      { search with waiting := rest, pieceOf := search.pieceOf.insert current search.found } := by
    simp only [PieceSearch.step, waiting]
  obtain ⟨fresh, sees⟩ := exists_sees
    { search with waiting := rest, pieceOf := search.pieceOf.insert current search.found }
    (graph.neighbours current)
  rw [← eq] at sees
  refine ⟨fresh, waiting, sees.waiting, sees.nodup, fun vertex => ?_, fun vertex => ?_,
    sees.pieceOf, sees.found⟩
  · rw [sees.mem_fresh, Graph.mem_neighbours built]
  · rw [sees.mem_seen, Graph.mem_neighbours built]

/-! ## The search from one vertex -/

/-- How far the search from a root has come since a start at which no vertex waited.  What
was seen is connected with the root and waits or is numbered, and what is numbered has no
neighbours left to see. -/
structure Spreads (graph : Graph) (start : PieceSearch) (root : Vertex) (search : PieceSearch) :
    Prop where
  found : search.found = start.found
  keeps : ∀ vertex ∈ start.seen, vertex ∈ search.seen
  starts : root ∈ search.seen
  sound : ∀ vertex ∈ search.seen, vertex ∈ start.seen ∨ graph.Connected root vertex
  waits : ∀ vertex ∈ search.waiting, vertex ∈ search.seen ∧ vertex ∉ start.seen
  nodup : search.waiting.Nodup
  numbered : ∀ vertex, search.pieceOf[vertex]? =
    if vertex ∈ search.seen ∧ vertex ∉ start.seen ∧ vertex ∉ search.waiting then
      some start.found
    else start.pieceOf[vertex]?
  closed : ∀ vertex ∈ search.seen, vertex ∉ start.seen → vertex ∉ search.waiting →
    ∀ next, Touches graph.allEdges vertex next → next ∈ search.seen

section Spreads

variable {start search : PieceSearch} {root : Vertex}

theorem spreads_see (idle : start.waiting = []) (unseen : root ∉ start.seen) :
    Spreads graph start root (start.see root) := by
  rw [see_of_unseen unseen]
  have inserted : ∀ vertex, vertex ∈ start.seen.insert root ↔
      root = vertex ∨ vertex ∈ start.seen := by
    simp
  refine ⟨rfl, fun vertex old => (inserted vertex).mpr (.inr old), (inserted root).mpr (.inl rfl),
    fun vertex member => ?_, ?_, by simp [idle], fun vertex => ?_, ?_⟩
  · rcases (inserted vertex).mp member with rfl | old
    · exact .inr .refl
    · exact .inl old
  · simp only [idle, List.mem_singleton, forall_eq]
    exact ⟨(inserted root).mpr (.inl rfl), unseen⟩
  · simp only [inserted, idle, List.mem_singleton]
    rw [if_neg]
    rintro ⟨rfl | old, notOld, notRoot⟩
    · exact notRoot rfl
    · exact notOld old
  · intro vertex member notOld notWaiting
    simp only [idle, List.mem_singleton] at notWaiting
    rcases (inserted vertex).mp member with rfl | old
    · exact absurd rfl notWaiting
    · exact absurd old notOld

private theorem StepsTo.settled_iff {current vertex : Vertex} {rest fresh : List Vertex}
    {later : PieceSearch} (steps : StepsTo graph search current rest fresh later)
    (different : vertex ≠ current) :
    vertex ∈ later.seen ∧ vertex ∉ start.seen ∧ vertex ∉ later.waiting ↔
      vertex ∈ search.seen ∧ vertex ∉ start.seen ∧ vertex ∉ search.waiting := by
  rw [steps.mem_seen, steps.waiting, steps.before, List.mem_append, List.mem_cons,
    steps.mem_fresh]
  tauto

/-- A step numbers the vertex that began to wait last. -/
theorem Spreads.step (spreads : Spreads graph start root search) (built : graph.Built)
    {current : Vertex} {rest : List Vertex} (waiting : search.waiting = current :: rest) :
    Spreads graph start root (search.step graph) := by
  obtain ⟨fresh, steps⟩ := exists_stepsTo built waiting
  have isWaiting : ∀ vertex ∈ current :: rest, vertex ∈ search.seen ∧ vertex ∉ start.seen := by
    rw [← waiting]
    exact spreads.waits
  obtain ⟨currentSeen, currentNew⟩ := isWaiting current (.head _)
  obtain ⟨notInRest, restNodup⟩ := List.nodup_cons.mp (waiting ▸ spreads.nodup)
  have connected : graph.Connected root current :=
    (spreads.sound current currentSeen).resolve_left currentNew
  have stays : ∀ vertex ∈ search.seen, vertex ∈ (search.step graph).seen :=
    fun vertex seen => (steps.mem_seen vertex).mpr (.inl seen)
  refine ⟨steps.found.trans spreads.found, fun vertex old => stays vertex
    (spreads.keeps vertex old), stays root spreads.starts, ?_, ?_, ?_, ?_, ?_⟩
  · intro vertex member
    rcases (steps.mem_seen vertex).mp member with old | touches
    · exact spreads.sound vertex old
    · exact .inr (connected.tail touches)
  · intro vertex member
    rw [steps.waiting] at member
    rcases List.mem_append.mp member with new | old
    · obtain ⟨touches, unseen⟩ := (steps.mem_fresh vertex).mp new
      exact ⟨(steps.mem_seen vertex).mpr (.inr touches),
        fun known => unseen (spreads.keeps vertex known)⟩
    · obtain ⟨seen, notOld⟩ := isWaiting vertex (.tail _ old)
      exact ⟨stays vertex seen, notOld⟩
  · rw [steps.waiting]
    refine List.nodup_append.mpr ⟨steps.nodup, restNodup, ?_⟩
    rintro vertex new _ old rfl
    exact ((steps.mem_fresh vertex).mp new).2 (isWaiting vertex (.tail _ old)).1
  · intro vertex
    rw [steps.pieceOf, Std.TreeMap.getElem?_insert]
    simp only [Std.LawfulEqOrd.compare_eq_iff_eq]
    by_cases same : current = vertex
    · subst same
      have notWaiting : current ∉ (search.step graph).waiting := by
        rw [steps.waiting, List.mem_append, steps.mem_fresh]
        tauto
      rw [if_pos rfl, if_pos ⟨stays current currentSeen, currentNew, notWaiting⟩, spreads.found]
    · rw [if_neg same, spreads.numbered]
      exact if_congr (steps.settled_iff (Ne.symm same)).symm rfl rfl
  · intro vertex member notOld notWaiting next touches
    by_cases same : vertex = current
    · exact (steps.mem_seen next).mpr (.inr (same ▸ touches))
    · obtain ⟨seen, _, idle⟩ := (steps.settled_iff same).mp ⟨member, notOld, notWaiting⟩
      exact stays next (spreads.closed vertex seen notOld idle next touches)

/-- The vertices that have no number. -/
def unnumbered (graph : Graph) (search : PieceSearch) : Nat :=
  graph.vertexList.countP fun vertex => search.pieceOf[vertex]?.isNone

theorem Spreads.unnumbered_step (spreads : Spreads graph start root search)
    (built : graph.Built) (known : root ∈ graph.vertices)
    (unknown : ∀ vertex, vertex ∉ start.seen → start.pieceOf[vertex]? = none)
    {current : Vertex} {rest : List Vertex} (waiting : search.waiting = current :: rest) :
    unnumbered graph (search.step graph) < unnumbered graph search := by
  obtain ⟨fresh, steps⟩ := exists_stepsTo built waiting
  have isWaiting : current ∈ search.waiting := waiting ▸ List.mem_cons_self
  obtain ⟨seen, notOld⟩ := spreads.waits current isWaiting
  have numberless : search.pieceOf[current]? = none := by
    rw [spreads.numbered, if_neg fun settled => settled.2.2 isWaiting]
    exact unknown current notOld
  have member : current ∈ graph.vertexList := Graph.mem_vertexList.mpr
    (((spreads.sound current seen).resolve_left notOld).mem_vertices built known)
  have fewer : ∀ vertex ∈ graph.vertexList, (search.step graph).pieceOf[vertex]?.isNone = true →
      search.pieceOf[vertex]?.isNone = true := by
    intro vertex _
    rw [steps.pieceOf, Std.TreeMap.getElem?_insert]
    split
    · exact nofun
    · exact id
  obtain ⟨before, behind, split⟩ := List.append_of_mem member
  unfold unnumbered
  rw [split] at fewer ⊢
  have fewerBefore := List.countP_mono_left fun vertex inside =>
    fewer vertex (List.mem_append_left _ inside)
  have fewerBehind := List.countP_mono_left fun vertex inside =>
    fewer vertex (List.mem_append_right _ (.tail _ inside))
  rw [List.countP_append, List.countP_append, List.countP_cons, List.countP_cons]
  simp only [steps.pieceOf, Std.TreeMap.getElem?_insert_self, numberless, Option.isNone_some,
    Option.isNone_none, if_true] at fewerBefore fewerBehind ⊢
  simp only [Bool.false_eq_true, if_false]
  omega

/-- With a step for each vertex without a number, the search ends with no vertex waiting. -/
theorem Spreads.run (built : graph.Built) (known : root ∈ graph.vertices)
    (unknown : ∀ vertex, vertex ∉ start.seen → start.pieceOf[vertex]? = none) {bound : Nat}
    (spreads : Spreads graph start root search) (enough : unnumbered graph search ≤ bound) :
    Spreads graph start root (search.run graph bound) ∧ (search.run graph bound).waiting = [] := by
  induction bound generalizing search with
  | zero =>
      cases waiting : search.waiting with
      | nil => exact ⟨spreads, waiting⟩
      | cons current rest =>
          have fewer := spreads.unnumbered_step built known unknown waiting
          omega
  | succ bound induction =>
      unfold PieceSearch.run
      cases waiting : search.waiting with
      | nil => exact ⟨by simpa using spreads, by simpa using waiting⟩
      | cons current rest =>
          have fewer := spreads.unnumbered_step built known unknown waiting
          simp only [List.isEmpty_cons, Bool.false_eq_true, if_false]
          exact induction (spreads.step built waiting) (by omega)

end Spreads

/-! ## The search from all vertices -/

/-- The pieces of some roots are numbered in the order of the roots, and nothing else was
seen. -/
structure Numbers (graph : Graph) (roots : List Vertex) (search : PieceSearch) : Prop where
  idle : search.waiting = []
  found : search.found = roots.length
  seen : ∀ vertex, vertex ∈ search.seen ↔ ∃ root ∈ roots, graph.Connected root vertex
  pieceOf : ∀ vertex number, search.pieceOf[vertex]? = some number ↔
    ∃ root, roots[number]? = some root ∧ graph.Connected root vertex

theorem numbers_nil (graph : Graph) : Numbers graph [] {} := by
  constructor <;> simp

section Numbers

variable {roots : List Vertex} {search : PieceSearch} {root : Vertex}

private theorem getElem?_concat_eq_some_iff {number : Nat} {other : Vertex} :
    (roots ++ [root])[number]? = some other ↔
      roots[number]? = some other ∨ number = roots.length ∧ other = root := by
  rcases Nat.lt_trichotomy number roots.length with below | rfl | above
  · simp [List.getElem?_append_left below, Nat.ne_of_lt below]
  · simp [eq_comm]
  · simp [List.getElem?_append_right (Nat.le_of_lt above), Nat.ne_of_gt above,
      Nat.le_of_lt above, Nat.sub_ne_zero_of_lt above]

private theorem Numbers.pieceOf_of_unseen (numbers : Numbers graph roots search)
    (vertex : Vertex) (unseen : vertex ∉ search.seen) : search.pieceOf[vertex]? = none := by
  cases found : search.pieceOf[vertex]? with
  | none => rfl
  | some number =>
      obtain ⟨root, place, connected⟩ := (numbers.pieceOf vertex number).mp found
      exact absurd ((numbers.seen vertex).mpr ⟨root, List.mem_of_getElem? place, connected⟩) unseen

/-- A vertex that was not seen before becomes the root of the next piece. -/
theorem Numbers.searchFrom (numbers : Numbers graph roots search) (built : graph.Built)
    (known : root ∈ graph.vertices) (unseen : root ∉ search.seen) :
    Numbers graph (roots ++ [root]) (search.searchFrom graph root) := by
  have unknown := numbers.pieceOf_of_unseen
  have enough : unnumbered graph (search.see root) ≤ graph.vertexCount := by
    rw [← Graph.length_vertexList]
    exact List.countP_le_length
  obtain ⟨spreads, idle⟩ := (spreads_see numbers.idle unseen).run built known unknown enough
  have eq : search.searchFrom graph root =
      { (search.see root).run graph graph.vertexCount with
        found := ((search.see root).run graph graph.vertexCount).found + 1 } := by
    rw [PieceSearch.searchFrom, if_neg (by simpa using unseen)]
  rw [eq]
  generalize (search.see root).run graph graph.vertexCount = last at spreads idle
  have apart : ∀ vertex, graph.Connected root vertex → vertex ∉ search.seen := by
    intro vertex connected member
    obtain ⟨other, among, otherConnected⟩ := (numbers.seen vertex).mp member
    exact unseen ((numbers.seen root).mpr ⟨other, among, otherConnected.trans connected.symm⟩)
  have complete : ∀ vertex, graph.Connected root vertex → vertex ∈ last.seen := by
    intro vertex connected
    induction connected with
    | refl => exact spreads.starts
    | tail before step induction =>
        exact spreads.closed _ induction (apart _ before) (by simp [idle]) _ step
  refine ⟨idle, ?_, fun vertex => ?_, fun vertex number => ?_⟩
  · simp [spreads.found, numbers.found]
  · simp only [List.mem_append, List.mem_singleton, or_and_right, exists_or, exists_eq_left]
    rw [← numbers.seen]
    exact ⟨spreads.sound vertex, fun seen => seen.elim (spreads.keeps vertex) (complete vertex)⟩
  · rw [spreads.numbered, numbers.found]
    simp only [getElem?_concat_eq_some_iff, or_and_right, exists_or, ← numbers.pieceOf]
    by_cases connected : graph.Connected root vertex
    · have unnumbered := numbers.pieceOf_of_unseen vertex (apart vertex connected)
      rw [if_pos ⟨complete vertex connected, apart vertex connected, by simp [idle]⟩, unnumbered]
      simp [connected, eq_comm]
    · rw [if_neg fun settled => settled.2.1
        ((spreads.sound vertex settled.1).resolve_right connected)]
      constructor
      · exact .inl
      · rintro (earlier | ⟨_, ⟨_, rfl⟩, last⟩)
        · exact earlier
        · exact absurd last connected

end Numbers

end PieceSearch

namespace Graph

/-- No smaller vertex is connected with the vertex. -/
def Leads (graph : Graph) (vertex : Vertex) : Prop :=
  ∀ other ∈ graph.vertices, graph.Connected other vertex → vertex ≤ other

open Classical in
/-- The smallest vertices of the pieces. -/
noncomputable def leaders (graph : Graph) : List Vertex :=
  graph.vertexList.filter fun vertex => graph.Leads vertex

open PieceSearch in
open Classical in
private theorem numbers_searchFrom {graph : Graph} (built : graph.Built) {done rest : List Vertex}
    {root : Vertex} {search : PieceSearch} (whole : done ++ root :: rest = graph.vertexList)
    (numbers : Numbers graph (done.filter fun vertex => graph.Leads vertex) search)
    (seen : ∀ vertex ∈ done, vertex ∈ search.seen) :
    Numbers graph ((done ++ [root]).filter fun vertex => graph.Leads vertex)
        (search.searchFrom graph root) ∧
      ∀ vertex ∈ done ++ [root], vertex ∈ (search.searchFrom graph root).seen := by
  have ascending := graph.vertexList_ascending
  rw [← whole] at ascending
  obtain ⟨_, fromRoot, acrossRoot⟩ := List.pairwise_append.mp ascending
  have known : root ∈ graph.vertices := by
    rw [← mem_vertexList, ← whole]
    simp
  by_cases old : root ∈ search.seen
  · have follows : ¬ graph.Leads root := by
      intro leads
      obtain ⟨leader, isLeader, connected⟩ := (numbers.seen root).mp old
      have earlier : leader ∈ done := (List.mem_filter.mp isLeader).1
      have member : leader ∈ graph.vertices := by
        rw [← mem_vertexList, ← whole]
        exact List.mem_append_left _ earlier
      exact Nat.not_le.mpr (acrossRoot leader earlier root (.head _))
        (leads leader member connected)
    rw [searchFrom, if_pos (by simpa using old), List.filter_append,
      List.filter_singleton, decide_eq_false follows]
    refine ⟨by simpa using numbers, fun vertex member => ?_⟩
    rcases List.mem_append.mp member with earlier | last
    · exact seen vertex earlier
    · exact List.mem_singleton.mp last ▸ old
  · have leads : graph.Leads root := by
      intro other member connected
      by_contra below
      have inside : other ∈ done ++ root :: rest := whole ▸ mem_vertexList.mpr member
      have earlier : other ∈ done := by
        refine (List.mem_append.mp inside).resolve_right fun later => ?_
        rcases List.mem_cons.mp later with rfl | later
        · exact below (Nat.le_refl _)
        · exact below (Nat.le_of_lt ((List.pairwise_cons.mp fromRoot).1 other later))
      obtain ⟨leader, isLeader, leads⟩ := (numbers.seen other).mp (seen other earlier)
      exact old ((numbers.seen root).mpr ⟨leader, isLeader, leads.trans connected⟩)
    have next := numbers.searchFrom built known old
    rw [List.filter_append, List.filter_singleton, decide_eq_true leads]
    refine ⟨next, fun vertex member => (next.seen vertex).mpr ?_⟩
    rcases List.mem_append.mp member with earlier | last
    · obtain ⟨leader, isLeader, connected⟩ := (numbers.seen vertex).mp (seen vertex earlier)
      exact ⟨leader, List.mem_append_left _ isLeader, connected⟩
    · exact ⟨root, by simp, List.mem_singleton.mp last ▸ .refl⟩

open PieceSearch in
/-- The pieces are numbered by their smallest vertices in ascending order, and every vertex
lies in one of them. -/
theorem numbers_ofGraph {graph : Graph} (built : graph.Built) :
    Numbers graph graph.leaders (.ofGraph graph) ∧
      ∀ vertex ∈ graph.vertices, ∃ leader ∈ graph.leaders, graph.Connected leader vertex := by
  classical
  have general : ∀ (rest done : List Vertex) (search : PieceSearch),
      done ++ rest = graph.vertexList →
      Numbers graph (done.filter fun vertex => graph.Leads vertex) search →
      (∀ vertex ∈ done, vertex ∈ search.seen) →
      Numbers graph graph.leaders (rest.foldl (searchFrom graph) search) ∧
        ∀ vertex ∈ graph.vertexList, vertex ∈ (rest.foldl (searchFrom graph) search).seen := by
    intro rest
    induction rest with
    | nil =>
        intro done search whole numbers seen
        rw [List.append_nil] at whole
        subst whole
        exact ⟨numbers, seen⟩
    | cons root rest induction =>
        intro done search whole numbers seen
        obtain ⟨next, nextSeen⟩ := numbers_searchFrom built whole numbers seen
        exact induction (done ++ [root]) _ (by simpa using whole) next nextSeen
  obtain ⟨numbers, seen⟩ := general graph.vertexList [] {} rfl (numbers_nil graph) (by simp)
  exact ⟨numbers, fun vertex member =>
    (numbers.seen vertex).mp (seen vertex (mem_vertexList.mpr member))⟩

end Graph

end GrammarReach
