import Std.Data.TreeMap.Lemmas

/-!
# Disjoint sets

Sets are kept as trees of parents with the size of each set at its root.  Joining
two sets hangs the smaller tree below the root of the larger one, and looking for
a root hangs everything on the way directly below it.
-/

namespace GrammarReach

/-- A family of disjoint sets of elements. -/
structure DisjointSets (α : Type) [Ord α] where
  parents : Std.TreeMap α α := ∅
  sizes : Std.TreeMap α Nat := ∅

namespace DisjointSets

variable {α : Type} [Ord α] [DecidableEq α]

def empty : DisjointSets α := {}

def size (sets : DisjointSets α) : Nat :=
  sets.parents.size

/-- The element is in one of the sets. -/
def contains (sets : DisjointSets α) (element : α) : Bool :=
  sets.parents.contains element

/-- Adds an element in a set of its own unless it is in a set already. -/
def insert (sets : DisjointSets α) (element : α) : DisjointSets α :=
  if sets.contains element then sets
  else
    { parents := sets.parents.insert element element
      sizes := sets.sizes.insert element 1 }

/-- The way from an element to its root, both included.  There are at most
`bound` steps to go. -/
def way (sets : DisjointSets α) : Nat → α → List α
  | 0, element => [element]
  | bound + 1, element =>
      match sets.parents[element]? with
      | some parent =>
          if parent = element then [element] else element :: way sets bound parent
      | none => [element]

/-- The root of the set of an element. -/
def root? (sets : DisjointSets α) (element : α) : Option α :=
  if sets.contains element then (sets.way sets.size element).getLast? else none

/-- Hangs the given elements directly below a root. -/
def hang (sets : DisjointSets α) (elements : List α) (root : α) : DisjointSets α :=
  { sets with
    parents := elements.foldl (fun parents element => parents.insert element root)
      sets.parents }

/-- Looks for the root of an element and shortens the way to it. -/
def find (sets : DisjointSets α) (element : α) : Option α × DisjointSets α :=
  match sets.root? element with
  | none => (none, sets)
  | some root => (some root, sets.hang (sets.way sets.size element) root)

def sizeAt (sets : DisjointSets α) (root : α) : Nat :=
  sets.sizes.getD root 0

/-- Hangs the tree of one root below another root. -/
def link (sets : DisjointSets α) (upper lower : α) : DisjointSets α where
  parents := sets.parents.insert lower upper
  sizes := sets.sizes.insert upper (sets.sizeAt upper + sets.sizeAt lower)

/-- Joins the sets of two elements and says whether they were apart.  Of two
equally large sets the first one keeps its root. -/
def union (sets : DisjointSets α) (left right : α) : Bool × DisjointSets α :=
  let sets := (sets.insert left).insert right
  let (leftRoot, sets) := sets.find left
  let (rightRoot, sets) := sets.find right
  match leftRoot, rightRoot with
  | some leftRoot, some rightRoot =>
      if leftRoot = rightRoot then (false, sets)
      else if sets.sizeAt rightRoot ≤ sets.sizeAt leftRoot then
        (true, sets.link leftRoot rightRoot)
      else
        (true, sets.link rightRoot leftRoot)
  | _, _ => (false, sets)

/-- Looks for the roots of some elements, one after the other. -/
def findAll (sets : DisjointSets α) : List α → List (α × α) × DisjointSets α
  | [] => ([], sets)
  | element :: rest =>
      let (root, sets) := sets.find element
      let (found, sets) := sets.findAll rest
      match root with
      | some root => ((root, element) :: found, sets)
      | none => (found, sets)

/-- Every set under its root.  Roots and members are in ascending order. -/
def groups (sets : DisjointSets α) : List (α × List α) × DisjointSets α :=
  let (found, sets) := sets.findAll sets.parents.keys
  let roots := (found.filter fun (root, element) => root = element).map (·.1)
  (roots.map fun root => (root, (found.filter (·.1 = root)).map (·.2)), sets)

end DisjointSets

end GrammarReach
