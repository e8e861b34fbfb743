import GrammarReach.Graph.ComponentSearch
import GrammarReach.Proofs.Graph.Indices
import GrammarReach.Proofs.Graph.Walks

/-!
# Levels of the stack

In the search for components the stack falls into levels, one for each vertex on the way.
All vertices of a level are in the component of the vertex on the way, and the edges that
were looked along from a level lead to completed components or not below the low mark of the
level.  A level whose mark is its own place is therefore a whole component, and any other
level is in the component of the level below it.
-/

namespace GrammarReach

namespace Graph

variable {graph : Graph} {vertex next : Vertex}

theorem Reaches.of_successor (indexed : graph.Indexed)
    (successor : next ∈ graph.successors vertex) : graph.Reaches vertex next := by
  obtain ⟨edge, member, rfl, rfl⟩ := indexed.mem_successors.mp successor
  exact .of_edge member

theorem Built.mem_vertices_of_successor (built : graph.Built)
    (successor : next ∈ graph.successors vertex) : next ∈ graph.vertices := by
  obtain ⟨edge, member, _, rfl⟩ := built.indexed.mem_successors.mp successor
  exact built.closed.target_mem edge member

end Graph

namespace ComponentSearch

variable {graph : Graph} {search later : ComponentSearch} {vertex next : Vertex}

/-- The number of vertices that were discovered before the given one. -/
def place (search : ComponentSearch) (vertex : Vertex) : Nat :=
  search.places.getD vertex 0

/-- The vertices of the completed components. -/
def settled (search : ComponentSearch) : List Vertex :=
  search.components.toList.flatten

/-! ## Single operations -/

theorem places_eq_some_iff {place : Nat} :
    search.places[vertex]? = some place ↔
      vertex ∈ search.places ∧ search.place vertex = place := by
  rw [ComponentSearch.place, Std.TreeMap.getD_eq_getD_getElem?]
  cases found : search.places[vertex]? with
  | none => simp [← Std.TreeMap.isSome_getElem?_iff_mem, found]
  | some other => simp [← Std.TreeMap.isSome_getElem?_iff_mem, found]

theorem not_mem_places_of_none (unseen : search.places[vertex]? = none) :
    vertex ∉ search.places := by
  intro old
  have found := Std.TreeMap.isSome_getElem?_iff_mem.mpr old
  simp [unseen] at found

theorem mem_places_discover {other : Vertex} :
    other ∈ (search.discover graph vertex).places ↔ other = vertex ∨ other ∈ search.places := by
  simp only [discover, Std.TreeMap.mem_insert, Std.LawfulEqOrd.compare_eq_iff_eq,
    eq_comm (a := vertex)]

theorem place_discover (other : Vertex) :
    (search.discover graph vertex).place other =
      if other = vertex then search.discovered else search.place other := by
  simp only [place, discover, Std.TreeMap.getD_insert, Std.LawfulEqOrd.compare_eq_iff_eq,
    eq_comm (a := vertex)]

theorem low_discover (other : Vertex) :
    (search.discover graph vertex).low other =
      if other = vertex then search.discovered else search.low other := by
  simp only [low, discover, Std.TreeMap.getD_insert, Std.LawfulEqOrd.compare_eq_iff_eq,
    eq_comm (a := vertex)]

theorem places_handDown (low : Nat) : (search.handDown low).places = search.places := by
  unfold handDown
  split <;> rfl

theorem stack_handDown (low : Nat) : (search.handDown low).stack = search.stack := by
  unfold handDown
  split <;> rfl

theorem frames_handDown (low : Nat) : (search.handDown low).frames = search.frames := by
  unfold handDown
  split <;> rfl

theorem places_leave : (search.leave vertex).places = search.places := by
  simp only [leave]
  split
  · exact places_handDown _
  · exact places_handDown _

theorem frames_leave : (search.leave vertex).frames = search.frames := by
  simp only [leave]
  split
  · exact frames_handDown _
  · exact frames_handDown _

theorem low_lower (place : Nat) (other : Vertex) :
    (search.lower vertex place).low other =
      if other = vertex then min (search.low vertex) place else search.low other := by
  simp only [low, lower, Std.TreeMap.getD_insert, Std.LawfulEqOrd.compare_eq_iff_eq,
    eq_comm (a := vertex)]

theorem popThrough_eq {others rest : List Vertex} (fresh : vertex ∉ others) :
    popThrough vertex (others ++ vertex :: rest) = (others ++ [vertex], rest) := by
  induction others with
  | nil => simp [popThrough]
  | cons other others induction =>
      have different : other ≠ vertex := fun same => fresh (by simp [same])
      have lower := induction fun member => fresh (List.mem_cons_of_mem _ member)
      simp [popThrough, different, lower]

theorem mem_foldl_erase {members : List Vertex} {waiting : VertexSet} {other : Vertex} :
    other ∈ members.foldl (fun waiting member => waiting.erase member) waiting ↔
      other ∈ waiting ∧ other ∉ members := by
  induction members generalizing waiting with
  | nil => simp
  | cons member members induction =>
      rw [List.foldl_cons, induction, Std.TreeSet.mem_erase]
      simp only [ne_eq, Std.LawfulEqOrd.compare_eq_iff_eq, List.mem_cons, not_or]
      constructor
      · rintro ⟨⟨different, old⟩, absent⟩
        exact ⟨old, fun same => different same.symm, absent⟩
      · rintro ⟨old, different, absent⟩
        exact ⟨⟨fun same => different same.symm, old⟩, absent⟩

/-! ## Levels of the stack -/

/-- A vertex that an edge leads to is in a completed component, or it was discovered and
stands not below a place. -/
def Covered (search : ComponentSearch) (bound : Nat) (next : Vertex) : Prop :=
  next ∈ search.settled ∨ next ∈ search.places ∧ bound ≤ search.place next

/-- What is known of a vertex on the way, of the other vertices of its level, which stand
above it on the stack, and of the rest of the stack below it. -/
structure Level (graph : Graph) (search : ComponentSearch) (frame : Frame)
    (others rest : List Vertex) : Prop where
  connected : ∀ other ∈ others,
    graph.Reaches frame.vertex other ∧ graph.Reaches other frame.vertex
  mark : ∃ reached ∈ frame.vertex :: rest, graph.Reaches frame.vertex reached ∧
    search.low frame.vertex = search.place reached
  ahead : ∀ next ∈ frame.ahead, next ∈ graph.successors frame.vertex
  left : ∀ other ∈ others, ∀ next ∈ graph.successors other,
    search.Covered (search.low frame.vertex) next
  looked : ∀ next ∈ graph.successors frame.vertex,
    next ∈ frame.ahead ∨ search.Covered (search.low frame.vertex) next

/-- A stack that falls into the levels of the vertices on the way, each of which reaches
the one above it. -/
inductive Layered (graph : Graph) (search : ComponentSearch) :
    List Frame → List Vertex → Prop where
  | bottom : Layered graph search [] []
  | level {frame : Frame} {frames : List Frame} {others rest : List Vertex} :
      Level graph search frame others rest →
      (∀ previous ∈ frames.head?, graph.Reaches previous.vertex frame.vertex) →
      Layered graph search frames rest →
      Layered graph search (frame :: frames) (others ++ frame.vertex :: rest)

/-- The later state knows all that the earlier one does, and it has the same marks for the
vertices on the way. -/
structure Continues (search later : ComponentSearch) (frames : List Frame) : Prop where
  places : ∀ vertex ∈ search.places, vertex ∈ later.places ∧
    later.place vertex = search.place vertex
  settled : ∀ vertex ∈ search.settled, vertex ∈ later.settled
  lows : ∀ frame ∈ frames, later.low frame.vertex = search.low frame.vertex

theorem Covered.follow {frames : List Frame} {bound : Nat}
    (continues : Continues search later frames) (covered : search.Covered bound next) :
    later.Covered bound next := by
  rcases covered with old | ⟨seen, above⟩
  · exact .inl (continues.settled next old)
  · obtain ⟨still, same⟩ := continues.places next seen
    exact .inr ⟨still, same ▸ above⟩

theorem Covered.weaken {bound lower : Nat} (below : lower ≤ bound)
    (covered : search.Covered bound next) : search.Covered lower next :=
  covered.imp_right fun ⟨seen, above⟩ => ⟨seen, Nat.le_trans below above⟩

theorem Covered.lower {place : Nat} (covered : search.Covered (search.low vertex) next) :
    (search.lower vertex place).Covered ((search.lower vertex place).low vertex) next := by
  rw [low_lower, if_pos rfl]
  exact covered.weaken (Nat.min_le_left _ _)

namespace Level

variable {frame : Frame} {others rest : List Vertex}

theorem low_le (level : Level graph search frame others rest)
    (below : ∀ other ∈ rest, search.place other < search.place frame.vertex) :
    search.low frame.vertex ≤ search.place frame.vertex := by
  obtain ⟨reached, member, _, mark⟩ := level.mark
  rw [mark]
  rcases List.mem_cons.mp member with rfl | member
  · exact Nat.le_refl _
  · exact Nat.le_of_lt (below reached member)

theorem exists_mark (level : Level graph search frame others rest)
    (descending : (others ++ frame.vertex :: rest).Pairwise
      fun upper lower => search.place lower < search.place upper)
    (waiting : next ∈ others ++ frame.vertex :: rest)
    (reaches : graph.Reaches frame.vertex next) :
    ∃ reached ∈ frame.vertex :: rest, graph.Reaches frame.vertex reached ∧
      min (search.low frame.vertex) (search.place next) = search.place reached := by
  obtain ⟨_, ordered, above⟩ := List.pairwise_append.mp descending
  by_cases lowered : search.place next < search.low frame.vertex
  · refine ⟨next, ?_, reaches, Nat.min_eq_right (Nat.le_of_lt lowered)⟩
    rcases List.mem_append.mp waiting with upper | member
    · have higher := above next upper frame.vertex List.mem_cons_self
      have markLe := level.low_le (List.pairwise_cons.mp ordered).1
      omega
    · exact member
  · obtain ⟨reached, member, reachesLow, mark⟩ := level.mark
    exact ⟨reached, member, reachesLow,
      (Nat.min_eq_left (Nat.le_of_not_lt lowered)).trans mark⟩

/-- A level stays one when its mark is lowered to the place of a vertex on the stack that is
reached. -/
theorem lower (level : Level graph search frame others rest)
    (descending : (others ++ frame.vertex :: rest).Pairwise
      fun upper lower => search.place lower < search.place upper)
    (waiting : next ∈ others ++ frame.vertex :: rest)
    (reaches : graph.Reaches frame.vertex next) :
    Level graph (search.lower frame.vertex (search.place next)) frame others rest := by
  refine ⟨level.connected, ?_, level.ahead, ?_, ?_⟩
  · rw [low_lower, if_pos rfl]
    exact level.exists_mark descending waiting reaches
  · exact fun other member following successor =>
      (level.left other member following successor).lower
  · exact fun following successor =>
      (level.looked following successor).imp_right Covered.lower

theorem connected_through {top : Vertex} (level : Level graph search frame others rest)
    (forth : graph.Reaches top frame.vertex) (back : graph.Reaches frame.vertex top) :
    ∀ other ∈ others ++ [frame.vertex], graph.Reaches top other ∧ graph.Reaches other top := by
  intro other member
  rcases List.mem_append.mp member with upper | last
  · obtain ⟨toOther, fromOther⟩ := level.connected other upper
    exact ⟨forth.trans toOther, fromOther.trans back⟩
  · rw [List.mem_singleton.mp last]
    exact ⟨forth, back⟩

theorem covered (level : Level graph search ⟨vertex, []⟩ others rest) :
    ∀ other ∈ others ++ [vertex], ∀ next ∈ graph.successors other,
      search.Covered (search.low vertex) next := by
  intro other member next successor
  rcases List.mem_append.mp member with upper | last
  · exact level.left other upper next successor
  · rw [List.mem_singleton.mp last] at successor
    exact (level.looked next successor).resolve_left List.not_mem_nil

theorem takeIn {upper : List Vertex} (level : Level graph search frame others rest)
    (connected : ∀ other ∈ upper,
      graph.Reaches frame.vertex other ∧ graph.Reaches other frame.vertex)
    (covered : ∀ other ∈ upper, ∀ next ∈ graph.successors other,
      search.Covered (search.low frame.vertex) next) :
    Level graph search frame (upper ++ others) rest :=
  ⟨fun other member => (List.mem_append.mp member).elim (connected other) (level.connected other),
    level.mark, level.ahead,
    fun other member => (List.mem_append.mp member).elim (covered other) (level.left other),
    level.looked⟩

end Level

namespace Layered

variable {frame : Frame} {frames : List Frame} {stack : List Vertex}

theorem stack_eq_nil (layered : Layered graph search [] stack) : stack = [] := by
  cases layered
  rfl

theorem vertex_mem (layered : Layered graph search frames stack) :
    ∀ frame ∈ frames, frame.vertex ∈ stack := by
  induction layered with
  | bottom => simp
  | level _ _ _ induction =>
      intro other member
      rcases List.mem_cons.mp member with rfl | member
      · simp
      · simp [induction other member]

theorem reaches_top (layered : Layered graph search (frame :: frames) stack)
    (member : vertex ∈ stack) : graph.Reaches vertex frame.vertex := by
  generalize same : frame :: frames = all at layered
  induction layered generalizing frame frames with
  | bottom => cases same
  | @level top below others rest level joined lower induction =>
      cases same
      rcases List.mem_append.mp member with other | member
      · exact (level.connected vertex other).2
      rcases List.mem_cons.mp member with rfl | member
      · exact .refl graph _
      cases below with
      | nil => rw [lower.stack_eq_nil] at member; cases member
      | cons previous below =>
          exact (induction member rfl).trans (joined previous rfl)

theorem follow (layered : Layered graph search frames stack)
    (continues : Continues search later frames) (seen : ∀ vertex ∈ stack, vertex ∈ search.places) :
    Layered graph later frames stack := by
  induction layered with
  | bottom => exact .bottom
  | @level top below others rest level joined lower induction =>
      have sameLow : later.low top.vertex = search.low top.vertex :=
        continues.lows top List.mem_cons_self
      have continuesBelow : Continues search later below :=
        ⟨continues.places, continues.settled,
          fun frame member => continues.lows frame (List.mem_cons_of_mem _ member)⟩
      refine .level ⟨level.connected, ?_, level.ahead, ?_, ?_⟩ joined
        (induction continuesBelow fun vertex member => seen vertex (by simp [member]))
      · obtain ⟨reached, member, reaches, mark⟩ := level.mark
        have samePlace := (continues.places reached (seen reached (by
          simpa using Or.inr (List.mem_cons.mp member)))).2
        exact ⟨reached, member, reaches, by rw [sameLow, samePlace, mark]⟩
      · intro other member next successor
        rw [sameLow]
        exact (level.left other member next successor).follow continues
      · intro next successor
        rw [sameLow]
        exact (level.looked next successor).imp_right fun covered => covered.follow continues

theorem advance {ahead : List Vertex}
    (layered : Layered graph search (⟨vertex, next :: ahead⟩ :: frames) stack)
    (covered : search.Covered (search.low vertex) next) :
    Layered graph search (⟨vertex, ahead⟩ :: frames) stack := by
  cases layered with
  | level level joined lower =>
      refine .level ⟨level.connected, level.mark, ?_, level.left, ?_⟩ joined lower
      · exact fun other member => level.ahead other (List.mem_cons_of_mem _ member)
      · intro other successor
        rcases level.looked other successor with member | done
        · rcases List.mem_cons.mp member with rfl | member
          · exact .inr covered
          · exact .inl member
        · exact .inr done

theorem low_le (layered : Layered graph search (frame :: frames) stack)
    (descending : stack.Pairwise fun upper lower => search.place lower < search.place upper) :
    search.low frame.vertex ≤ search.place frame.vertex := by
  cases layered with
  | level level _ _ =>
      exact level.low_le (List.pairwise_cons.mp (List.pairwise_append.mp descending).2.1).1

theorem low_eq_place (layered : Layered graph search [frame] stack) :
    search.low frame.vertex = search.place frame.vertex := by
  cases layered with
  | level level _ lower =>
      obtain ⟨reached, member, _, mark⟩ := level.mark
      rw [lower.stack_eq_nil] at member
      rw [mark, List.mem_singleton.mp member]

theorem successor {ahead : List Vertex}
    (layered : Layered graph search (⟨vertex, next :: ahead⟩ :: frames) stack) :
    next ∈ graph.successors vertex := by
  cases layered with
  | level level _ _ => exact level.ahead next List.mem_cons_self

theorem enter (layered : Layered graph search frames stack)
    (joined : ∀ previous ∈ frames.head?, graph.Reaches previous.vertex vertex)
    (mark : search.low vertex = search.place vertex) :
    Layered graph search (⟨vertex, (graph.successors vertex).toList⟩ :: frames)
      (vertex :: stack) := by
  have level : Level graph search ⟨vertex, (graph.successors vertex).toList⟩ [] stack :=
    ⟨by simp, ⟨vertex, by simp, .refl graph vertex, mark⟩, by simp, by simp,
      fun next successor => .inl (by simpa using successor)⟩
  exact .level level joined layered

theorem follow_lower (layered : Layered graph search frames stack) (place : Nat)
    (below : ∀ other ∈ stack, search.place other < search.place vertex)
    (seen : ∀ vertex ∈ stack, vertex ∈ search.places) :
    Layered graph (search.lower vertex place) frames stack := by
  refine layered.follow ⟨fun other member => ⟨member, rfl⟩, fun _ member => member, ?_⟩ seen
  intro frame member
  have different : frame.vertex ≠ vertex := by
    intro same
    have strictly := below frame.vertex (layered.vertex_mem frame member)
    simp [same] at strictly
  simp [low_lower, different]

/-- The mark of the last vertex on the way is lowered to the place of a vertex on the stack
that it reaches. -/
theorem lower {ahead : List Vertex}
    (layered : Layered graph search (⟨vertex, ahead⟩ :: frames) stack)
    (descending : stack.Pairwise fun upper lower => search.place lower < search.place upper)
    (seen : ∀ vertex ∈ stack, vertex ∈ search.places)
    (waiting : next ∈ stack) (reaches : graph.Reaches vertex next) :
    Layered graph (search.lower vertex (search.place next)) (⟨vertex, ahead⟩ :: frames)
      stack := by
  cases layered with
  | level level joined lower =>
      have ordered := (List.pairwise_append.mp descending).2.1
      exact .level (level.lower descending waiting reaches) joined
        (lower.follow_lower _ (List.pairwise_cons.mp ordered).1
          fun other member => seen other (by simp [member]))

/-- A vertex that is left with a mark below its place joins the level below it. -/
theorem merge {parent : Frame}
    (layered : Layered graph search (⟨vertex, []⟩ :: parent :: frames) stack)
    (descending : stack.Pairwise fun upper lower => search.place lower < search.place upper)
    (seen : ∀ vertex ∈ stack, vertex ∈ search.places)
    (unfinished : search.low vertex ≠ search.place vertex) :
    Layered graph (search.lower parent.vertex (search.low vertex)) (parent :: frames)
      stack := by
  generalize sameFrames : parent :: frames = below at layered
  cases layered with
  | @level _ _ others parentStack level joined lower =>
  subst sameFrames
  obtain ⟨reached, member, reaches, mark⟩ := level.mark
  have forth : graph.Reaches parent.vertex vertex := joined parent rfl
  have inParent : reached ∈ parentStack := by
    rcases List.mem_cons.mp member with rfl | member
    · exact absurd mark unfinished
    · exact member
  have back : graph.Reaches vertex parent.vertex := reaches.trans (lower.reaches_top inParent)
  cases lower with
  | @level _ _ parentOthers rest parentLevel parentJoined deeper =>
      have parentOrdered := (List.pairwise_cons.mp (List.pairwise_append.mp descending).2.1).2
      have ordered := (List.pairwise_append.mp parentOrdered).2.1
      have deeperLayered :
          Layered graph (search.lower parent.vertex (search.low vertex)) frames rest :=
        deeper.follow_lower _ (List.pairwise_cons.mp ordered).1
          fun other member => seen other (by simp [member])
      have lowered :
          Level graph (search.lower parent.vertex (search.low vertex)) parent parentOthers rest :=
        mark ▸ parentLevel.lower parentOrdered inParent (forth.trans reaches)
      have merged := lowered.takeIn (level.connected_through forth back)
        fun other member following successor => by
          rw [low_lower, if_pos rfl]
          exact (level.covered other member following successor).weaken (Nat.min_le_right _ _)
      simpa using Layered.level merged parentJoined deeperLayered

end Layered

end ComponentSearch

end GrammarReach
