import GrammarReach.Text.Numeral
import Std.Data.TreeSet

/-!
# Grammar rules in normal form

A grammar is a list of rules in five shapes.  A nonterminal stands for tuples of
segments; each rule says how the segments of its head are made from labels and
from the segments of its bodies.
-/

namespace GrammarReach

/-- The label of an edge, and the terminal of a grammar. -/
abbrev Label := String

/-- The name of a nonterminal. -/
abbrev Nonterminal := String

namespace Grammar

/-- The start nonterminal.  Its one-segment derivations are the answers. -/
def startName : Nonterminal := "S"

/-- The label of the loop that every graph vertex carries. -/
def epsilon : Label := ""

/-- The body name that stands for the empty word. -/
def emptyWordName : Nonterminal := "Eps"

end Grammar

/-- Names segment `segment` of the derivation bound at body position `body`. -/
structure SegmentRef where
  body : Nat
  segment : Nat
deriving DecidableEq, Repr

/-- The head is one edge with the label. -/
structure BasicRule where
  head : Nonterminal
  label : Label
deriving DecidableEq, Repr

/-- The head is the body with segment `index` lengthened by one edge. -/
structure ExtensionRule where
  head : Nonterminal
  body : Nonterminal
  label : Label
  index : Nat
  arity : Nat
deriving DecidableEq, Repr

/-- The head is the body with one edge inserted as a new segment at `index`. -/
structure InsertionRule where
  head : Nonterminal
  body : Nonterminal
  label : Label
  index : Nat
  bodyArity : Nat
deriving DecidableEq, Repr

/-- Head segment `k` is the concatenation of the body segments listed in
`wiring[k]`, which have to meet end to start. -/
structure ConcatenationRule where
  head : Nonterminal
  bodies : List Nonterminal
  wiring : List (List SegmentRef)
deriving DecidableEq, Repr

namespace ConcatenationRule

/-- The largest count among the segments that the rule refers to in the body at
`position`. -/
def arityBy (count : Nat → Nat) (rule : ConcatenationRule) (position : Nat) : Nat :=
  rule.wiring.flatten.foldl
    (fun arity reference =>
      if reference.body = position then max arity (count reference.segment) else arity)
    0

/-- The number of segments that the rule expects of the body at `position`: one
more than the highest segment it refers to. -/
def bodyArity (rule : ConcatenationRule) (position : Nat) : Nat :=
  rule.arityBy (fun segment => segment + 1) position

/-- The body arity as a machine word.  One more than the last word is zero, so a
reference to that segment expects nothing. -/
def wordArity (rule : ConcatenationRule) (position : Nat) : Nat :=
  rule.arityBy (fun segment => (segment + 1) % Text.wordBound) position

/-- The pairs of neighbours in one chain of references. -/
def neighbours (chain : List SegmentRef) : List (SegmentRef × SegmentRef) :=
  chain.zip chain.tail

/-- The pairs of references of which the left one has to end where the right
one starts. -/
def links (rule : ConcatenationRule) : List (SegmentRef × SegmentRef) :=
  rule.wiring.flatMap neighbours

end ConcatenationRule

/-- A rule in one of the five shapes. -/
inductive Rule where
  | basic (rule : BasicRule)
  | prepend (rule : ExtensionRule)
  | append (rule : ExtensionRule)
  | insert (rule : InsertionRule)
  | concatenate (rule : ConcatenationRule)
deriving DecidableEq, Repr

def Rule.head : Rule → Nonterminal
  | .basic rule => rule.head
  | .prepend rule => rule.head
  | .append rule => rule.head
  | .insert rule => rule.head
  | .concatenate rule => rule.head

/-- A grammar in normal form, its rules grouped by shape. -/
structure Grammar where
  basic : List BasicRule := []
  prepend : List ExtensionRule := []
  append : List ExtensionRule := []
  insert : List InsertionRule := []
  concatenate : List ConcatenationRule := []
deriving DecidableEq, Repr

namespace Grammar

def empty : Grammar := {}

/-- The rules of the left grammar followed, within each shape, by those of the
right one. -/
def union (left right : Grammar) : Grammar where
  basic := left.basic ++ right.basic
  prepend := left.prepend ++ right.prepend
  append := left.append ++ right.append
  insert := left.insert ++ right.insert
  concatenate := left.concatenate ++ right.concatenate

instance : Append Grammar := ⟨union⟩

/-- The grammar of the given rules, in their order within each shape. -/
def ofRules (rules : List Rule) : Grammar where
  basic := rules.filterMap fun | .basic rule => some rule | _ => none
  prepend := rules.filterMap fun | .prepend rule => some rule | _ => none
  append := rules.filterMap fun | .append rule => some rule | _ => none
  insert := rules.filterMap fun | .insert rule => some rule | _ => none
  concatenate := rules.filterMap fun | .concatenate rule => some rule | _ => none

def rules (grammar : Grammar) : List Rule :=
  grammar.basic.map .basic ++ grammar.prepend.map .prepend ++
    grammar.append.map .append ++ grammar.insert.map .insert ++
    grammar.concatenate.map .concatenate

def size (grammar : Grammar) : Nat :=
  grammar.basic.length + grammar.prepend.length + grammar.append.length +
    grammar.insert.length + grammar.concatenate.length

/-- The largest number of segments of any head, and at least one. -/
def dimension (grammar : Grammar) : Nat :=
  let arities :=
    grammar.prepend.map (·.arity) ++ grammar.append.map (·.arity) ++
      grammar.insert.map (·.bodyArity + 1) ++
      grammar.concatenate.map (·.wiring.length)
  arities.foldl max 1

/-- The largest number of bodies of any rule. -/
def rank (grammar : Grammar) : Nat :=
  let hasUnary :=
    !(grammar.prepend.isEmpty && grammar.append.isEmpty && grammar.insert.isEmpty)
  (grammar.concatenate.map (·.bodies.length)).foldl max (if hasUnary then 1 else 0)

/-- The labels that the rules mention, each once and in ascending order. -/
def labels (grammar : Grammar) : List Label :=
  (Std.TreeSet.ofList
    (grammar.basic.map (·.label) ++ grammar.prepend.map (·.label) ++
      grammar.append.map (·.label) ++ grammar.insert.map (·.label))).toList

end Grammar

end GrammarReach
