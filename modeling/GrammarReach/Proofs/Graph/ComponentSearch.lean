import GrammarReach.Proofs.Graph.Numbering
import GrammarReach.Proofs.Graph.SearchLevels
import GrammarReach.Proofs.Graph.Sizes
import Mathlib.Algebra.GroupWithZero.Nat
import Mathlib.Algebra.Order.BigOperators.Group.List
import Mathlib.Algebra.Order.Group.Nat

/-!
# What the search for components finds

Every step keeps the levels of the stack and an order of the completed components in which no
edge leads to a later one.  A step also does a part of the work, which is bounded by the
numbers of vertices and edges, so that the search leaves no vertex on the way.  Then nothing
waits on the stack, and the completed components hold every vertex of the graph once.
-/

namespace GrammarReach

/-- Components in an order in which no edge leads from one to a later one. -/
inductive Ranked (graph : Graph) : List (List Vertex) → Prop where
  | none : Ranked graph []
  | complete {components : List (List Vertex)} {members : List Vertex} :
      Ranked graph components →
      members ≠ [] →
      (∀ first ∈ members, ∀ second ∈ members, graph.Reaches first second) →
      (∀ member ∈ members, ∀ next ∈ graph.successors member,
        next ∈ components.flatten ∨ next ∈ members) →
      Ranked graph (components ++ [members])

namespace ComponentSearch

variable {graph : Graph} {search : ComponentSearch} {vertex next : Vertex}

/-- What the search keeps beside the levels of its stack. -/
structure Kept (graph : Graph) (search : ComponentSearch) : Prop where
  descending : search.stack.Pairwise fun upper lower => search.place lower < search.place upper
  place_lt : ∀ vertex ∈ search.places, search.place vertex < search.discovered
  known : ∀ vertex, vertex ∈ search.places ↔ vertex ∈ search.stack ∨ vertex ∈ search.settled
  nodup : (search.stack ++ search.settled).Nodup
  waits : ∀ vertex, vertex ∈ search.waiting ↔ vertex ∈ search.stack
  inside : ∀ vertex ∈ search.places, vertex ∈ graph.vertices
  ranked : Ranked graph search.components.toList

/-! ## Completed components -/

theorem settled_complete {others rest : List Vertex} (fresh : vertex ∉ others)
    (stack : search.stack = others ++ vertex :: rest) :
    (search.complete vertex).settled = search.settled ++ (others ++ [vertex]) := by
  simp [settled, complete, stack, popThrough_eq fresh]

/-- What stands on the stack down to a vertex is completed when these vertices reach each
other and lead to nothing else but completed components. -/
theorem Kept.complete {others rest : List Vertex} (kept : Kept graph search)
    (stack : search.stack = others ++ vertex :: rest)
    (connected : ∀ first ∈ others ++ [vertex], ∀ second ∈ others ++ [vertex],
      graph.Reaches first second)
    (closed : ∀ member ∈ others ++ [vertex], ∀ next ∈ graph.successors member,
      next ∈ search.settled ∨ next ∈ others ++ [vertex]) :
    Kept graph (search.complete vertex) ∧ (search.complete vertex).stack = rest := by
  have distinct := kept.nodup
  rw [stack] at distinct
  have fresh : vertex ∉ others := by
    intro member
    have apart := (List.nodup_append.mp (List.nodup_append.mp distinct).1).2.2
    exact apart vertex member vertex List.mem_cons_self rfl
  have settled := settled_complete fresh stack
  have restStack : (search.complete vertex).stack = rest := by
    simp [ComponentSearch.complete, stack, popThrough_eq fresh]
  have rearranged : (rest ++ (search.settled ++ (others ++ [vertex]))).Perm
      (others ++ vertex :: rest ++ search.settled) := by
    simpa using (List.perm_append_comm :
      (rest ++ search.settled ++ (others ++ [vertex])).Perm
        (others ++ [vertex] ++ (rest ++ search.settled)))
  refine ⟨⟨?_, kept.place_lt, ?_, ?_, ?_, kept.inside, ?_⟩, restStack⟩
  · have descending := kept.descending
    rw [stack] at descending
    rw [restStack]
    exact (List.pairwise_cons.mp (List.pairwise_append.mp descending).2.1).2
  · intro other
    rw [restStack, settled, ← List.mem_append, rearranged.mem_iff, ← stack, List.mem_append]
    exact kept.known other
  · rw [restStack, settled]
    exact rearranged.nodup_iff.mpr distinct
  · intro other
    have apart : other ∈ rest → other ∉ others ++ [vertex] := by
      intro below above
      have split := (List.nodup_append.mp (rearranged.nodup_iff.mpr distinct)).2.2
      exact split other below other (by simp only [List.mem_append] at above ⊢; tauto) rfl
    have waiting : other ∈ (search.complete vertex).waiting ↔
        other ∈ search.waiting ∧ other ∉ others ++ [vertex] := by
      simp only [ComponentSearch.complete, stack, popThrough_eq fresh, mem_foldl_erase]
    rw [restStack, waiting, kept.waits, stack, List.append_cons, List.mem_append]
    tauto
  · have components : (search.complete vertex).components.toList =
        search.components.toList ++ [others ++ [vertex]] := by
      simp [ComponentSearch.complete, stack, popThrough_eq fresh]
    rw [components]
    exact .complete kept.ranked (by simp) connected closed

/-! ## Steps -/

theorem Kept.discover (kept : Kept graph search) (new : vertex ∉ search.places)
    (member : vertex ∈ graph.vertices) : Kept graph (search.discover graph vertex) := by
  have unstacked : vertex ∉ search.stack := fun old => new ((kept.known vertex).mpr (.inl old))
  have unsettled : vertex ∉ search.settled :=
    fun old => new ((kept.known vertex).mpr (.inr old))
  have older : ∀ other ∈ search.places,
      (search.discover graph vertex).place other = search.place other := by
    intro other old
    have different : other ≠ vertex := fun same => new (same ▸ old)
    simp [place_discover, different]
  have newest : (search.discover graph vertex).place vertex = search.discovered := by
    simp [place_discover]
  have stacked : ∀ other ∈ search.stack, other ∈ search.places :=
    fun other old => (kept.known other).mpr (.inl old)
  refine ⟨List.pairwise_cons.mpr ⟨?_, ?_⟩, ?_, ?_, ?_, ?_, ?_, kept.ranked⟩
  · intro other old
    rw [newest, older other (stacked other old)]
    exact kept.place_lt other (stacked other old)
  · refine kept.descending.imp_of_mem fun {upper lower} upperOld lowerOld below => ?_
    rw [older upper (stacked upper upperOld), older lower (stacked lower lowerOld)]
    exact below
  · intro other seen
    rcases mem_places_discover.mp seen with rfl | old
    · rw [newest]
      exact Nat.lt_succ_self _
    · rw [older other old]
      exact Nat.lt_succ_of_lt (kept.place_lt other old)
  · intro other
    rw [mem_places_discover, kept.known other, ← or_assoc, ← List.mem_cons]
    exact .rfl
  · exact List.nodup_cons.mpr
      ⟨fun old => (List.mem_append.mp old).elim unstacked unsettled, kept.nodup⟩
  · intro other
    simp only [ComponentSearch.discover, Std.TreeSet.mem_insert,
      Std.LawfulEqOrd.compare_eq_iff_eq, List.mem_cons, kept.waits other, eq_comm (a := vertex)]
  · intro other seen
    rcases mem_places_discover.mp seen with rfl | old
    · exact member
    · exact kept.inside other old

theorem Kept.lower (kept : Kept graph search) (vertex : Vertex) (place : Nat) :
    Kept graph (search.lower vertex place) :=
  ⟨kept.descending, kept.place_lt, kept.known, kept.nodup, kept.waits, kept.inside, kept.ranked⟩

theorem Kept.withFrames (kept : Kept graph search) (frames : List Frame) :
    Kept graph { search with frames } :=
  ⟨kept.descending, kept.place_lt, kept.known, kept.nodup, kept.waits, kept.inside, kept.ranked⟩

theorem Kept.handDown (kept : Kept graph search) (low : Nat) :
    Kept graph (search.handDown low) := by
  unfold ComponentSearch.handDown
  split
  · exact kept
  · exact kept.lower _ _

theorem Kept.stacked (kept : Kept graph search) :
    ∀ vertex ∈ search.stack, vertex ∈ search.places :=
  fun vertex member => (kept.known vertex).mpr (.inl member)

theorem Kept.continues_discover {frames : List Frame} (kept : Kept graph search)
    (layered : Layered graph search frames search.stack) (new : vertex ∉ search.places) :
    Continues search (search.discover graph vertex) frames := by
  refine ⟨fun other old => ⟨mem_places_discover.mpr (.inr old), ?_⟩, fun _ old => old, ?_⟩
  · have different : other ≠ vertex := fun same => new (same ▸ old)
    simp [place_discover, different]
  · intro frame member
    have different : frame.vertex ≠ vertex :=
      fun same => new (same ▸ kept.stacked _ (layered.vertex_mem frame member))
    simp [low_discover, different]

/-- What holds between two steps of the search. -/
structure Sound (graph : Graph) (search : ComponentSearch) : Prop where
  kept : Kept graph search
  layered : Layered graph search search.frames search.stack

section Steps

variable {frames : List Frame} {ahead : List Vertex}

theorem Sound.layered_withFrames (sound : Sound graph search) (others : List Frame) :
    Layered graph { search with frames := others } search.frames search.stack :=
  sound.layered.follow ⟨fun _ member => ⟨member, rfl⟩, fun _ member => member, fun _ _ => rfl⟩
    sound.kept.stacked

theorem Sound.look (built : graph.Built) (sound : Sound graph search)
    (way : search.frames = ⟨vertex, next :: ahead⟩ :: frames) :
    Sound graph
      (({ search with frames := ⟨vertex, ahead⟩ :: frames } : ComponentSearch).look graph
        vertex next) := by
  let paused : ComponentSearch := { search with frames := ⟨vertex, ahead⟩ :: frames }
  have kept : Kept graph paused := sound.kept.withFrames _
  have layered : Layered graph paused (⟨vertex, next :: ahead⟩ :: frames) paused.stack :=
    way ▸ sound.layered_withFrames _
  have successor : next ∈ graph.successors vertex := layered.successor
  have reaches : graph.Reaches vertex next := .of_successor built.indexed successor
  show Sound graph (paused.look graph vertex next)
  unfold ComponentSearch.look
  split
  case h_1 unseen =>
    have new : next ∉ paused.places := not_mem_places_of_none unseen
    have continues := kept.continues_discover layered new
    have after := layered.follow continues kept.stacked
    have lowLt : (paused.discover graph next).low vertex ≤
        (paused.discover graph next).place next := by
      have sameLow := continues.lows _ List.mem_cons_self
      have underPlace := layered.low_le kept.descending
      have early := kept.place_lt vertex
        (kept.stacked _ (layered.vertex_mem _ List.mem_cons_self))
      simp only [place_discover, if_true] at sameLow underPlace ⊢
      omega
    have advanced := after.advance (.inr ⟨mem_places_discover.mpr (.inl rfl), lowLt⟩)
    refine ⟨kept.discover new (built.mem_vertices_of_successor successor), ?_⟩
    exact advanced.enter (by rintro previous ⟨⟩; exact reaches)
      (by simp [low_discover, place_discover])
  case h_2 place found =>
    obtain ⟨seen, rfl⟩ := places_eq_some_iff.mp found
    split
    case isTrue waiting =>
      have stacked : next ∈ paused.stack :=
        (kept.waits next).mp (Std.TreeSet.contains_iff_mem.mp waiting)
      refine ⟨kept.lower _ _, ?_⟩
      have lowered := layered.lower kept.descending kept.stacked stacked reaches
      refine lowered.advance (.inr ⟨seen, ?_⟩)
      simp only [low_lower, if_true]
      exact Nat.min_le_right _ _
    case isFalse gone =>
      refine ⟨kept, layered.advance (.inl ?_)⟩
      have unstacked : next ∉ paused.stack := fun member =>
        gone (Std.TreeSet.contains_iff_mem.mpr ((kept.waits next).mpr member))
      exact ((kept.known next).mp seen).resolve_left unstacked

theorem Layered.continues_handDown {stack : List Vertex}
    (layered : Layered graph search (⟨vertex, []⟩ :: frames) stack)
    (descending : stack.Pairwise fun upper lower => search.place lower < search.place upper)
    (way : search.frames = frames) (finished : search.low vertex = search.place vertex) :
    Continues search (search.handDown (search.low vertex)) (⟨vertex, []⟩ :: frames) := by
  unfold handDown
  rw [way]
  cases frames with
  | nil => exact ⟨fun _ member => ⟨member, rfl⟩, fun _ member => member, fun _ _ => rfl⟩
  | cons parent frames =>
      refine ⟨fun _ member => ⟨member, rfl⟩, fun _ member => member, fun frame _ => ?_⟩
      have parentLow : search.low parent.vertex ≤ search.low vertex := by
        cases layered with
        | level _ _ lower =>
            obtain ⟨below, ordered⟩ :=
              List.pairwise_cons.mp (List.pairwise_append.mp descending).2.1
            have underPlace := lower.low_le ordered
            have underVertex := below _ (lower.vertex_mem parent List.mem_cons_self)
            simp only at underVertex
            omega
      rw [low_lower]
      split
      case isTrue same => rw [same, Nat.min_eq_left parentLow]
      case isFalse => rfl

/-- A vertex that is left with its own place as its mark completes its component. -/
theorem Kept.finish (kept : Kept graph search)
    (layered : Layered graph search (⟨vertex, []⟩ :: frames) search.stack)
    (finished : search.low vertex = search.place vertex) :
    Kept graph (search.complete vertex) ∧
      Layered graph (search.complete vertex) frames (search.complete vertex).stack := by
  have descending := kept.descending
  have stacked := kept.stacked
  have distinct := kept.nodup
  generalize whole : search.stack = stack at layered descending stacked distinct
  cases layered with
  | @level _ _ others rest level joined lower =>
      obtain ⟨_, ordered, _⟩ := List.pairwise_append.mp descending
      obtain ⟨below, _⟩ := List.pairwise_cons.mp ordered
      have connected := level.connected_through (.refl graph vertex) (.refl graph vertex)
      have closed : ∀ member ∈ others ++ [vertex], ∀ next ∈ graph.successors member,
          next ∈ search.settled ∨ next ∈ others ++ [vertex] := by
        intro member inside next successor
        rcases level.covered member inside next successor with settled | ⟨seen, above⟩
        · exact .inl settled
        rcases (kept.known next).mp seen with stacked | settled
        · rw [whole, List.append_cons] at stacked
          rcases List.mem_append.mp stacked with upper | lower
          · exact .inr upper
          · have under := below next lower
            simp only at under
            omega
        · exact .inl settled
      obtain ⟨keptAfter, stackAfter⟩ := kept.complete whole
        (fun first firstMember second secondMember =>
          (connected first firstMember).2.trans (connected second secondMember).1) closed
      have fresh : vertex ∉ others := fun member =>
        (List.nodup_append.mp (List.nodup_append.mp distinct).1).2.2 vertex member vertex
          List.mem_cons_self rfl
      refine ⟨keptAfter, stackAfter ▸ lower.follow ⟨fun _ member => ⟨member, rfl⟩, ?_,
        fun _ _ => rfl⟩ fun other member => stacked other (by simp [member])⟩
      intro other settled
      rw [settled_complete fresh whole]
      exact List.mem_append_left _ settled

theorem Sound.leave (sound : Sound graph search)
    (way : search.frames = ⟨vertex, []⟩ :: frames) :
    Sound graph (({ search with frames } : ComponentSearch).leave vertex) := by
  let paused : ComponentSearch := { search with frames }
  let lowered := paused.handDown (paused.low vertex)
  have kept : Kept graph paused := sound.kept.withFrames _
  have layered : Layered graph paused (⟨vertex, []⟩ :: frames) paused.stack :=
    way ▸ sound.layered_withFrames _
  have seen : vertex ∈ paused.places :=
    kept.stacked _ (layered.vertex_mem _ List.mem_cons_self)
  have keptLowered : Kept graph lowered := kept.handDown _
  have samePlaces : lowered.places = paused.places := places_handDown _
  have sameStack : lowered.stack = paused.stack := stack_handDown _
  have sameFrames : lowered.frames = frames := frames_handDown _
  have samePlace : lowered.place vertex = paused.place vertex := by
    rw [place, samePlaces, place]
  show Sound graph (if lowered.places[vertex]? = some (paused.low vertex)
    then lowered.complete vertex else lowered)
  split
  case isTrue found =>
    have finished : paused.low vertex = paused.place vertex := by
      rw [← (places_eq_some_iff.mp found).2, samePlace]
    have continues := layered.continues_handDown kept.descending rfl finished
    have layeredLowered : Layered graph lowered (⟨vertex, []⟩ :: frames) lowered.stack :=
      sameStack ▸ layered.follow continues kept.stacked
    have finishedLowered : lowered.low vertex = lowered.place vertex := by
      rw [samePlace, ← finished]
      exact continues.lows _ List.mem_cons_self
    obtain ⟨keptAfter, layeredAfter⟩ := keptLowered.finish layeredLowered finishedLowered
    exact ⟨keptAfter, sameFrames.symm ▸ layeredAfter⟩
  case isFalse other =>
    have unfinished : paused.low vertex ≠ paused.place vertex := by
      intro same
      refine other (places_eq_some_iff.mpr ⟨samePlaces ▸ seen, ?_⟩)
      rw [samePlace, same]
    refine ⟨keptLowered, ?_⟩
    rw [sameFrames, sameStack]
    cases frames with
    | nil => exact absurd (layered.low_eq_place) unfinished
    | cons parent frames => exact layered.merge kept.descending kept.stacked unfinished

theorem Sound.step (built : graph.Built) (sound : Sound graph search) :
    Sound graph (search.step graph) := by
  unfold ComponentSearch.step
  split
  case h_1 => exact sound
  case h_2 vertex frames way => exact sound.leave way
  case h_3 vertex next ahead frames way => exact sound.look built way

end Steps

/-! ## The bound on the steps -/

/-- What a vertex costs the search: one step for each edge and one to leave it. -/
def cost (graph : Graph) (vertex : Vertex) : Nat :=
  (graph.successors vertex).size + 1

/-- The cost of the vertices that are not discovered yet. -/
def pending (graph : Graph) (search : ComponentSearch) : Nat :=
  (graph.vertexList.map fun vertex =>
    if vertex ∈ search.places then 0 else cost graph vertex).sum

/-- The steps that are left until there is no vertex on the way. -/
def work (graph : Graph) (search : ComponentSearch) : Nat :=
  (search.frames.map fun frame => frame.ahead.length + 1).sum + pending graph search

theorem pending_discover (new : vertex ∉ search.places) (member : vertex ∈ graph.vertices) :
    pending graph (search.discover graph vertex) + cost graph vertex = pending graph search := by
  have listed : vertex ∈ graph.vertexList := Graph.mem_vertexList.mpr member
  have split := List.perm_cons_erase listed
  have others : (graph.vertexList.erase vertex).map (fun other =>
        if other ∈ (search.discover graph vertex).places then 0 else cost graph other) =
      (graph.vertexList.erase vertex).map fun other =>
        if other ∈ search.places then 0 else cost graph other := by
    refine List.map_congr_left fun other inside => ?_
    have different := (graph.nodup_vertexList.mem_erase_iff.mp inside).1
    simp [mem_places_discover, different]
  unfold pending
  rw [(split.map _).sum_nat, List.map_cons, List.sum_cons, others,
    if_pos (mem_places_discover.mpr (.inl rfl)), (split.map fun other =>
      if other ∈ search.places then 0 else cost graph other).sum_nat, List.map_cons,
    List.sum_cons, if_neg new]
  omega

/-- At first the work is as much as there are vertices and edges. -/
theorem pending_le (built : graph.Built) (search : ComponentSearch) :
    pending graph search ≤ graph.vertexCount + graph.edgeCount := by
  let degree := fun vertex =>
    (graph.edges.toList.filter fun edge => some edge.source == some vertex).length
  have costs : ∀ vertex, cost graph vertex = degree vertex + 1 := by
    intro vertex
    rw [cost, Graph.successors, ← Array.length_toList, built.indexed.after, List.length_map]
    simp [degree, beq_eq_decide]
  have edges : (graph.vertexList.map degree).sum ≤ graph.edgeCount :=
    Graph.sum_length_filter_le graph.nodup_vertexList (fun edge : Edge => some edge.source)
      graph.edges.toList
  calc
    pending graph search ≤ (graph.vertexList.map fun vertex => degree vertex + 1).sum := by
      refine List.sum_le_sum fun vertex _ => ?_
      rw [costs]
      split <;> simp
    _ = (graph.vertexList.map degree).sum + graph.vertexList.length := by
      simp [List.sum_map_add]
    _ ≤ graph.vertexCount + graph.edgeCount := by
      rw [Graph.length_vertexList]
      omega

theorem work_step (built : graph.Built) (sound : Sound graph search)
    (unfinished : search.frames ≠ []) : work graph (search.step graph) + 1 = work graph search := by
  unfold ComponentSearch.step
  split
  case h_1 none => exact absurd none unfinished
  case h_2 vertex frames way =>
    have samePending : pending graph (({ search with frames } : ComponentSearch).leave vertex) =
        pending graph search := by
      rw [pending, places_leave]
      rfl
    rw [work, frames_leave, samePending, work, way]
    simp only [List.map_cons, List.sum_cons, List.length_nil]
    omega
  case h_3 vertex next ahead frames way =>
    let paused : ComponentSearch := { search with frames := ⟨vertex, ahead⟩ :: frames }
    have pausedWork : work graph paused + 1 = work graph search := by
      simp only [work, way, paused, List.map_cons, List.sum_cons, List.length_cons]
      rw [show pending graph paused = pending graph search from rfl]
      omega
    rw [← pausedWork]
    congr 1
    show work graph (paused.look graph vertex next) = work graph paused
    unfold ComponentSearch.look
    split
    case h_1 unseen =>
      have new : next ∉ paused.places := not_mem_places_of_none unseen
      have layered := sound.layered
      rw [way] at layered
      have paid := pending_discover new
        (built.mem_vertices_of_successor layered.successor)
      simp only [work, ComponentSearch.discover, List.map_cons, List.sum_cons,
        Array.length_toList] at paid ⊢
      unfold cost at paid
      omega
    case h_2 =>
      split <;> rfl

/-! ## The whole search -/

theorem mem_places_step (member : vertex ∈ search.places) :
    vertex ∈ (search.step graph).places := by
  unfold ComponentSearch.step
  split
  case h_1 => exact member
  case h_2 => rwa [places_leave]
  case h_3 =>
    unfold ComponentSearch.look
    split
    case h_1 => exact mem_places_discover.mpr (.inr member)
    case h_2 => split <;> exact member

/-- A search that may take as many steps as it has work left leaves all vertices on the way. -/
theorem Sound.run (built : graph.Built) {bound : Nat} (sound : Sound graph search)
    (enough : work graph search ≤ bound) :
    Sound graph (search.run graph bound) ∧ (search.run graph bound).frames = [] ∧
      ∀ vertex ∈ search.places, vertex ∈ (search.run graph bound).places := by
  induction bound generalizing search with
  | zero =>
      have finished : search.frames = [] := by
        cases way : search.frames with
        | nil => rfl
        | cons frame frames => simp [work, way] at enough
      exact ⟨sound, finished, fun _ member => member⟩
  | succ bound induction =>
      unfold ComponentSearch.run
      by_cases finished : search.frames = []
      · rw [if_pos (by simp [finished])]
        exact ⟨sound, finished, fun _ member => member⟩
      · rw [if_neg (by simpa using finished)]
        have spent := work_step built sound finished
        obtain ⟨soundAfter, finishedAfter, grown⟩ :=
          induction (sound.step built) (by omega)
        exact ⟨soundAfter, finishedAfter,
          fun vertex member => grown vertex (mem_places_step member)⟩

/-- A search from one more root completes the components of the vertices it discovers. -/
theorem Sound.searchFrom (built : graph.Built) {root : Vertex} (sound : Sound graph search)
    (finished : search.frames = []) (member : root ∈ graph.vertices) :
    Sound graph (search.searchFrom graph root) ∧ (search.searchFrom graph root).frames = [] ∧
      ∀ vertex, vertex = root ∨ vertex ∈ search.places →
        vertex ∈ (search.searchFrom graph root).places := by
  unfold ComponentSearch.searchFrom
  by_cases known : root ∈ search.places
  · rw [if_pos (Std.TreeMap.contains_iff_mem.mpr known)]
    refine ⟨sound, finished, ?_⟩
    rintro vertex (rfl | old)
    · exact known
    · exact old
  · rw [if_neg (by simpa using known)]
    have layered := sound.layered
    rw [finished] at layered
    have after := layered.follow (sound.kept.continues_discover layered known)
      sound.kept.stacked
    have started : Sound graph (search.discover graph root) := by
      refine ⟨sound.kept.discover known member, ?_⟩
      have mark : (search.discover graph root).low root =
          (search.discover graph root).place root := by simp [low_discover, place_discover]
      have entered := after.enter (by simp) mark
      simpa only [ComponentSearch.discover, finished] using entered
    have paid := pending_discover known member
    have bound := pending_le built search
    have enough : work graph (search.discover graph root) ≤
        graph.vertexCount + graph.edgeCount := by
      simp only [work, ComponentSearch.discover, finished, List.map_cons, List.map_nil,
        List.sum_cons, List.sum_nil, Array.length_toList] at paid ⊢
      unfold cost at paid
      omega
    obtain ⟨soundAfter, finishedAfter, grown⟩ := started.run built enough
    exact ⟨soundAfter, finishedAfter,
      fun vertex member => grown vertex (mem_places_discover.mpr member)⟩

theorem sound_empty (graph : Graph) : Sound graph {} where
  kept :=
    { descending := .nil
      place_lt := by simp
      known := by simp [settled]
      nodup := by simp [settled]
      waits := by simp
      inside := by simp
      ranked := .none }
  layered := .bottom

theorem sound_ofGraph (built : graph.Built) :
    Sound graph (ofGraph graph) ∧ (ofGraph graph).frames = [] ∧
      ∀ vertex ∈ graph.vertices, vertex ∈ (ofGraph graph).places := by
  have general : ∀ (roots : List Vertex) (search : ComponentSearch),
      (∀ root ∈ roots, root ∈ graph.vertices) → Sound graph search → search.frames = [] →
        Sound graph (roots.foldl (searchFrom graph) search) ∧
        (roots.foldl (searchFrom graph) search).frames = [] ∧
        ∀ vertex, vertex ∈ roots ∨ vertex ∈ search.places →
          vertex ∈ (roots.foldl (searchFrom graph) search).places := by
    intro roots
    induction roots with
    | nil => exact fun search _ sound finished => ⟨sound, finished, by simp⟩
    | cons root roots induction =>
        intro search inside sound finished
        obtain ⟨soundAfter, finishedAfter, grown⟩ :=
          sound.searchFrom built finished (inside root List.mem_cons_self)
        obtain ⟨soundLast, finishedLast, all⟩ := induction _
          (fun other member => inside other (List.mem_cons_of_mem _ member))
          soundAfter finishedAfter
        refine ⟨soundLast, finishedLast, fun vertex member => all vertex ?_⟩
        rcases member with listed | old
        · rcases List.mem_cons.mp listed with same | listed
          · exact .inr (grown vertex (.inl same))
          · exact .inl listed
        · exact .inr (grown vertex (.inr old))
  obtain ⟨sound, finished, all⟩ := general graph.vertexList {}
    (fun _ => Graph.mem_vertexList.mp) (sound_empty graph) rfl
  exact ⟨sound, finished, fun vertex member => all vertex (.inl (Graph.mem_vertexList.mpr member))⟩

/-- The completed components hold every vertex of the graph once, each of them is connected
both ways, and no edge leads from one to a later one. -/
theorem perm_settled_ofGraph (built : graph.Built) :
    (ofGraph graph).settled.Perm graph.vertexList := by
  obtain ⟨⟨kept, layered⟩, finished, all⟩ := sound_ofGraph built
  rw [finished] at layered
  have known : ∀ vertex, vertex ∈ (ofGraph graph).settled ↔ vertex ∈ (ofGraph graph).places := by
    intro vertex
    rw [kept.known vertex, layered.stack_eq_nil]
    simp
  refine (List.perm_ext_iff_of_nodup (List.nodup_append.mp kept.nodup).2.1
    graph.nodup_vertexList).mpr fun vertex => ?_
  rw [known, Graph.mem_vertexList]
  exact ⟨kept.inside vertex, all vertex⟩

theorem ranked_ofGraph (built : graph.Built) :
    Ranked graph (ofGraph graph).components.toList :=
  (sound_ofGraph built).1.kept.ranked

end ComponentSearch

end GrammarReach
