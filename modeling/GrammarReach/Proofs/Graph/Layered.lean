import GrammarReach.Graph.Layered
import GrammarReach.Proofs.Graph.Numbering
import GrammarReach.Proofs.Graph.Walks

/-!
# Walks through layered graphs

A walk through a layered graph runs above a walk of the graph below, and each step
goes from layer to layer as one of the copies of its edge does.  Above a walk of the graph
there is a walk for every such run through the layers.
-/

namespace GrammarReach

namespace LayeredGraph

/-! ## The edges of a layered graph -/

/-- The edge between pairs that a copy of an edge becomes, if its ends are known. -/
def above (layered : LayeredGraph) (edge : Edge) (copy : (Nat × Nat) × Label) :
    Option Edge :=
  match layered.lift edge.source copy.1.1, layered.lift edge.target copy.1.2 with
  | some source, some target => some ⟨source, target, copy.2⟩
  | _, _ => none

private theorem connect_eq (layered : LayeredGraph) (edge : Edge) (copy : (Nat × Nat) × Label) :
    layered.connect (edge.source, copy.1.1) (edge.target, copy.1.2) copy.2 =
      { layered with graph := (layered.above edge copy).toList.foldl Graph.add layered.graph } := by
  unfold connect above
  simp only
  cases layered.lift edge.source copy.1.1 with
  | none => rfl
  | some source => cases layered.lift edge.target copy.1.2 <;> rfl

private theorem copyEdge_eq (layered : LayeredGraph) (edge : Edge)
    (copies : List ((Nat × Nat) × Label)) :
    layered.copyEdge edge copies =
      { layered with
        graph := (copies.flatMap fun copy => (layered.above edge copy).toList).foldl Graph.add
          layered.graph } := by
  unfold copyEdge
  induction copies generalizing layered with
  | nil => rfl
  | cons copy copies induction =>
      obtain ⟨between, label⟩ := copy
      have step := connect_eq layered edge (between, label)
      rw [List.foldl_cons, induction, List.flatMap_cons, List.foldl_append]
      simp only at step ⊢
      rw [step]
      rfl

private theorem foldl_copyEdge (layered : LayeredGraph) (edges : List Edge)
    (copies : Edge → List ((Nat × Nat) × Label)) :
    edges.foldl (fun layered edge => layered.copyEdge edge (copies edge)) layered =
      { layered with
        graph := (edges.flatMap fun edge => (copies edge).flatMap fun copy =>
          (layered.above edge copy).toList).foldl Graph.add layered.graph } := by
  induction edges generalizing layered with
  | nil => rfl
  | cons edge edges induction =>
      rw [List.foldl_cons, copyEdge_eq, induction, List.flatMap_cons, List.foldl_append]
      rfl

section Copies

variable {source : Graph} {layers : Nat} {copies : Edge → List ((Nat × Nat) × Label)}

theorem ofCopies_eq (source : Graph) (layers : Nat)
    (copies : Edge → List ((Nat × Nat) × Label)) :
    ofCopies source layers copies =
      { unconnected source layers with
        graph := .ofEdges ((source.edges.toList.filter fun edge => !edge.isEpsilonLoop).flatMap
          fun edge => (copies edge).flatMap fun copy =>
            ((unconnected source layers).above edge copy).toList) } :=
  foldl_copyEdge _ _ _

theorem layers_ofCopies : (ofCopies source layers copies).layers = max layers 1 := by
  rw [ofCopies_eq]
  rfl

theorem built_ofCopies : (ofCopies source layers copies).graph.Built := by
  rw [ofCopies_eq]
  exact Graph.built_ofEdges _

private theorem split_of_lift {vertex pair : Vertex} {layer : Nat} (below : layer < layers)
    (lifted : (unconnected source layers).lift vertex layer = some pair) :
    (ofCopies source layers copies).split pair = some (vertex, layer) := by
  have layersEq : max layers 1 = layers := by omega
  obtain ⟨number, numbered, pairEq⟩ := Option.map_eq_some_iff.mp lifted
  have spelled : pair = layers * number + layer := by
    rw [← pairEq]
    simp [unconnected, layersEq, Nat.mod_eq_of_lt below]
  have vertexEq : (Numbering.ofGraph source).vertex? number = some vertex := by
    have placed := Numbering.number?_eq_some_iff.mp numbered
    simpa [Numbering.vertex?, Numbering.ofGraph] using placed
  rw [ofCopies_eq]
  unfold split
  simp only [unconnected, layersEq]
  have quotient : pair / layers = number := by
    rw [spelled, Nat.mul_add_div (by omega), Nat.div_eq_of_lt below, Nat.add_zero]
  have remainder : pair % layers = layer := by
    rw [spelled, Nat.mul_add_mod, Nat.mod_eq_of_lt below]
  rw [quotient, remainder, vertexEq]
  rfl

theorem exists_copy_of_mem (bounded : ∀ edge copy, copy ∈ copies edge →
      copy.1.1 < layers ∧ copy.1.2 < layers)
    {edge : Edge} (member : edge ∈ (ofCopies source layers copies).graph.edges)
    (noLoop : edge.isEpsilonLoop = false) :
    ∃ original ∈ source.edges, original.isEpsilonLoop = false ∧ ∃ first next,
      ((first, next), edge.label) ∈ copies original ∧
      (ofCopies source layers copies).split edge.source = some (original.source, first) ∧
      (ofCopies source layers copies).split edge.target = some (original.target, next) := by
  have made := member
  rw [ofCopies_eq] at made
  obtain ⟨generator, copied, generated⟩ := Graph.mem_ofEdges.mp made
  rcases generated with rfl | rfl | rfl
  · obtain ⟨original, kept, copied⟩ := List.mem_flatMap.mp copied
    obtain ⟨⟨⟨first, next⟩, label⟩, isCopy, copied⟩ := List.mem_flatMap.mp copied
    obtain ⟨inSource, originalNoLoop⟩ := List.mem_filter.mp kept
    obtain ⟨firstBelow, nextBelow⟩ := bounded original _ isCopy
    rw [Option.mem_toList] at copied
    unfold above at copied
    split at copied
    · rename_i sourcePair targetPair sourceLifted targetLifted
      cases copied
      exact ⟨original, by simpa using inSource, by simpa using originalNoLoop, first, next,
        isCopy, split_of_lift firstBelow sourceLifted, split_of_lift nextBelow targetLifted⟩
    · cases copied
  · simp at noLoop
  · simp at noLoop

theorem exists_copy (bounded : ∀ edge copy, copy ∈ copies edge →
      copy.1.1 < layers ∧ copy.1.2 < layers)
    {edge : Edge} (member : edge ∈ (ofCopies source layers copies).graph.labelledEdges) :
    ∃ original ∈ source.edges, original.isEpsilonLoop = false ∧ ∃ first next,
      ((first, next), edge.label) ∈ copies original ∧
      (ofCopies source layers copies).split edge.source = some (original.source, first) ∧
      (ofCopies source layers copies).split edge.target = some (original.target, next) := by
  obtain ⟨inside, labelled⟩ := Graph.mem_labelledEdges.mp member
  exact exists_copy_of_mem bounded inside (by simp [Edge.isEpsilonLoop, labelled])

/-- Copies with labels bring no epsilon edges besides loops. -/
theorem loopsOnly_ofCopies (labelled : ∀ edge ∈ source.edges, edge.isEpsilonLoop = false →
    ∀ copy ∈ copies edge, copy.2 ≠ Grammar.epsilon) :
    (ofCopies source layers copies).graph.LoopsOnly := by
  rw [ofCopies_eq]
  refine Graph.loopsOnly_ofEdges fun edge member => ?_
  obtain ⟨original, kept, copied⟩ := List.mem_flatMap.mp member
  obtain ⟨copy, isCopy, copied⟩ := List.mem_flatMap.mp copied
  obtain ⟨inSource, noLoop⟩ := List.mem_filter.mp kept
  have shown := labelled original (by simpa using inSource) (by simpa using noLoop) copy isCopy
  rw [Option.mem_toList] at copied
  unfold above at copied
  split at copied
  · cases copied
    simpa [Edge.isEpsilon] using shown
  · cases copied

/-! ## Walks below -/

/-- The copies of the edges of a path lead from layer to layer and spell a word. -/
inductive Run (copies : Edge → List ((Nat × Nat) × Label)) :
    Nat → List Edge → List Label → Nat → Prop where
  | nil (layer : Nat) : Run copies layer [] [] layer
  | cons {edge : Edge} {path : List Edge} {label : Label} {word : List Label}
      {first next last : Nat} : ((first, next), label) ∈ copies edge →
      Run copies next path word last → Run copies first (edge :: path) (label :: word) last

theorem Run.append {first middle last : Nat} {path behind : List Edge} {word later : List Label}
    (run : Run copies first path word middle) (rest : Run copies middle behind later last) :
    Run copies first (path ++ behind) (word ++ later) last := by
  induction run with
  | nil => exact rest
  | cons copy _ induction => exact .cons copy (induction rest)

theorem Run.bounded (bounded : ∀ edge copy, copy ∈ copies edge →
      copy.1.1 < layers ∧ copy.1.2 < layers)
    {first last : Nat} {path : List Edge} {word : List Label}
    (run : Run copies first path word last) (below : first < layers) : last < layers := by
  induction run with
  | nil => exact below
  | cons copy _ induction => exact induction (bounded _ _ copy).2

/-- Below a walk without epsilon loops lies a walk whose copies spell the same word. -/
theorem exists_run_of_mem (bounded : ∀ edge copy, copy ∈ copies edge →
      copy.1.1 < layers ∧ copy.1.2 < layers)
    {pair other : Vertex} {path : List Edge} (joins : Joins pair path other)
    (inside : ∀ edge ∈ path, edge ∈ (ofCopies source layers copies).graph.edges)
    (noLoop : ∀ edge ∈ path, edge.isEpsilonLoop = false)
    {vertex : Vertex} {layer : Nat}
    (placed : (ofCopies source layers copies).split pair = some (vertex, layer)) :
    ∃ stop last below, (ofCopies source layers copies).split other = some (stop, last) ∧
      Joins vertex below stop ∧ (∀ edge ∈ below, edge ∈ source.edges) ∧
      Run copies layer below (wordOf path) last := by
  induction path generalizing pair vertex layer with
  | nil =>
      cases joins
      exact ⟨vertex, layer, [], placed, rfl, by simp, .nil layer⟩
  | cons edge path induction =>
      obtain ⟨rfl, rest⟩ := joins
      obtain ⟨original, inSource, _, first, next, isCopy, sourcePlaced, targetPlaced⟩ :=
        exists_copy_of_mem bounded (inside edge (by simp)) (noLoop edge (by simp))
      rw [sourcePlaced] at placed
      cases placed
      obtain ⟨stop, last, below, otherPlaced, joinsBelow, insideBelow, run⟩ :=
        induction rest (fun other member => inside other (by simp [member]))
          (fun other member => noLoop other (by simp [member])) targetPlaced
      exact ⟨stop, last, original :: below, otherPlaced, ⟨rfl, joinsBelow⟩,
        List.forall_mem_cons.mpr ⟨inSource, insideBelow⟩, .cons isCopy run⟩

theorem exists_run (bounded : ∀ edge copy, copy ∈ copies edge →
      copy.1.1 < layers ∧ copy.1.2 < layers)
    {pair other : Vertex} {path : List Edge} (joins : Joins pair path other)
    (inside : ∀ edge ∈ path, edge ∈ (ofCopies source layers copies).graph.labelledEdges)
    {vertex : Vertex} {layer : Nat}
    (placed : (ofCopies source layers copies).split pair = some (vertex, layer)) :
    ∃ stop last below, (ofCopies source layers copies).split other = some (stop, last) ∧
      Joins vertex below stop ∧ (∀ edge ∈ below, edge ∈ source.edges) ∧
      Run copies layer below (wordOf path) last := by
  have labelled := fun edge member => Graph.mem_labelledEdges.mp (inside edge member)
  apply exists_run_of_mem bounded joins (fun edge member => (labelled edge member).1) _ placed
  exact fun edge member => by simp [Edge.isEpsilonLoop, (labelled edge member).2]

/-! ## Walks above -/

private theorem exists_lift {vertex : Vertex} (known : vertex ∈ source.vertices) (layer : Nat) :
    ∃ pair, (unconnected source layers).lift vertex layer = some pair := by
  obtain ⟨number, numbered⟩ := Numbering.exists_number_iff.mpr known
  exact ⟨_, Option.map_eq_some_iff.mpr ⟨number, numbered, rfl⟩⟩

private theorem mem_of_copy {edge : Edge} (inside : edge ∈ source.edges)
    (noLoop : edge.isEpsilonLoop = false) {first next : Nat} {label : Label}
    (copy : ((first, next), label) ∈ copies edge) {pair other : Vertex}
    (lifted : (unconnected source layers).lift edge.source first = some pair)
    (otherLifted : (unconnected source layers).lift edge.target next = some other) :
    (⟨pair, other, label⟩ : Edge) ∈ (ofCopies source layers copies).graph.edges := by
  rw [ofCopies_eq]
  refine Graph.mem_ofEdges.mpr ⟨⟨pair, other, label⟩, ?_, .inl rfl⟩
  refine List.mem_flatMap.mpr ⟨edge, List.mem_filter.mpr ⟨by simpa using inside, ?_⟩,
    List.mem_flatMap.mpr ⟨_, copy, ?_⟩⟩
  · simp [noLoop]
  · simp [above, lifted, otherLifted]

private theorem exists_liftedWalk (built : source.Built) {first last : Nat} {path : List Edge}
    {word : List Label} (run : Run copies first path word last) :
    ∀ {vertex stop pair : Vertex}, Joins vertex path stop →
      (∀ edge ∈ path, edge ∈ source.edges) → (∀ edge ∈ path, edge.isEpsilonLoop = false) →
      (unconnected source layers).lift vertex first = some pair →
      ∃ other walk, (unconnected source layers).lift stop last = some other ∧
        Joins pair walk other ∧
        (∀ edge ∈ walk, edge ∈ (ofCopies source layers copies).graph.edges) ∧
        wordOf walk = word := by
  induction run with
  | nil =>
      intro vertex stop pair joins _ _ lifted
      cases joins
      exact ⟨pair, [], lifted, rfl, by simp, rfl⟩
  | @cons edge path label word first next last copy _ induction =>
      intro vertex stop pair joins inside noLoop lifted
      obtain ⟨rfl, rest⟩ := joins
      have edgeInside := inside edge (by simp)
      obtain ⟨middle, middleLifted⟩ := @exists_lift _ layers _
        (built.closed.target_mem edge edgeInside) next
      obtain ⟨other, walk, otherLifted, walkJoins, walkInside, spelled⟩ :=
        induction rest (fun other member => inside other (by simp [member]))
          (fun other member => noLoop other (by simp [member])) middleLifted
      have step := mem_of_copy edgeInside (noLoop edge (by simp)) copy lifted middleLifted
      exact ⟨other, ⟨pair, middle, label⟩ :: walk, otherLifted, ⟨rfl, walkJoins⟩,
        List.forall_mem_cons.mpr ⟨step, walkInside⟩, by simp [spelled]⟩

/-- Above a walk without epsilon loops whose copies spell a word lies a walk with that word. -/
theorem exists_walk_of_run (built : source.Built) (bounded : ∀ edge copy, copy ∈ copies edge →
      copy.1.1 < layers ∧ copy.1.2 < layers)
    {first last : Nat} {path : List Edge} {word : List Label}
    (run : Run copies first path word last) {vertex stop : Vertex}
    (joins : Joins vertex path stop) (inside : ∀ edge ∈ path, edge ∈ source.edges)
    (noLoop : ∀ edge ∈ path, edge.isEpsilonLoop = false) (known : vertex ∈ source.vertices)
    (below : first < layers) :
    ∃ pair other walk, (ofCopies source layers copies).split pair = some (vertex, first) ∧
      (ofCopies source layers copies).split other = some (stop, last) ∧
      Joins pair walk other ∧
      (∀ edge ∈ walk, edge ∈ (ofCopies source layers copies).graph.edges) ∧
      wordOf walk = word := by
  obtain ⟨pair, lifted⟩ := @exists_lift _ layers _ known first
  obtain ⟨other, walk, otherLifted, rest⟩ :=
    exists_liftedWalk built run joins inside noLoop lifted
  exact ⟨pair, other, walk, split_of_lift below lifted,
    split_of_lift (run.bounded bounded below) otherLifted, rest⟩

/-- Above a walk of labelled edges whose copies spell a word lies a walk with that word. -/
theorem exists_walk_above (built : source.Built) (bounded : ∀ edge copy, copy ∈ copies edge →
      copy.1.1 < layers ∧ copy.1.2 < layers)
    {first last : Nat} {path : List Edge} {word : List Label}
    (run : Run copies first path word last) (labelled : ∀ label ∈ word, label ≠ Grammar.epsilon)
    {vertex stop : Vertex} (joins : Joins vertex path stop)
    (inside : ∀ edge ∈ path, edge ∈ source.labelledEdges) (known : vertex ∈ source.vertices)
    (below : first < layers) :
    ∃ pair other walk, (ofCopies source layers copies).split pair = some (vertex, first) ∧
      (ofCopies source layers copies).split other = some (stop, last) ∧
      Joins pair walk other ∧
      (∀ edge ∈ walk, edge ∈ (ofCopies source layers copies).graph.labelledEdges) ∧
      wordOf walk = word := by
  have sourceEdge := fun edge member => Graph.mem_labelledEdges.mp (inside edge member)
  obtain ⟨pair, other, walk, placed, otherPlaced, walkJoins, walkInside, rfl⟩ :=
    exists_walk_of_run built bounded run joins (fun edge member => (sourceEdge edge member).1)
      (fun edge member => by simp [Edge.isEpsilonLoop, (sourceEdge edge member).2]) known below
  refine ⟨pair, other, walk, placed, otherPlaced, walkJoins, fun edge member => ?_, rfl⟩
  refine Graph.mem_labelledEdges.mpr ⟨walkInside edge member, ?_⟩
  simpa [Edge.isEpsilon] using labelled edge.label (List.mem_map_of_mem member)

end Copies

/-- The projected spans lie below the spans between accepted layers. -/
theorem mem_project {layered : LayeredGraph} {spans : List Span} {start : Nat}
    {accepts : Nat → Bool} {span : Span} :
    span ∈ layered.project spans start accepts ↔
      span.start ≠ span.stop ∧ ∃ above ∈ spans, ∃ last,
        layered.split above.start = some (span.start, start) ∧
        layered.split above.stop = some (span.stop, last) ∧ accepts last = true := by
  unfold project
  rw [Std.TreeSet.mem_ofList, List.contains_iff_mem, List.mem_filterMap]
  constructor
  · rintro ⟨above, member, projected⟩
    unfold projectSpan at projected
    split at projected
    · rename_i first firstLayer second secondLayer firstPlaced secondPlaced
      obtain ⟨⟨sameLayer, accepted, different⟩, same⟩ :=
        Option.ite_none_right_eq_some.mp projected
      cases same
      exact ⟨different, above, member, secondLayer, sameLayer ▸ firstPlaced, secondPlaced,
        accepted⟩
    · cases projected
  · rintro ⟨different, above, member, last, firstPlaced, secondPlaced, accepted⟩
    refine ⟨above, member, ?_⟩
    unfold projectSpan
    rw [firstPlaced, secondPlaced]
    simp [accepted, different]

end LayeredGraph

end GrammarReach
