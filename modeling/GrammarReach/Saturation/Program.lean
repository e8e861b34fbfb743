import GrammarReach.Derivation.Table

/-!
# Rules by what sets them off

A grammar is prepared for saturation: nonterminals become numbers, basic rules
are found by label and all other rules by the nonterminals of their bodies.
Concatenations without a body, with an empty chain or with a reference to a
missing body derive nothing and are left out.
-/

namespace GrammarReach

/-- A rule with one body, which is known from where the rule is filed. -/
structure UnaryStep where
  head : NonterminalId
  label : Label
  index : Nat
deriving DecidableEq, Repr

/-- A concatenation with numbered nonterminals, the links of its wiring and the
number of segments it expects of each body. -/
structure Join where
  head : NonterminalId
  bodies : List NonterminalId
  wiring : List (List SegmentRef)
  links : List (SegmentRef × SegmentRef)
  arities : List Nat
deriving DecidableEq, Repr

/-- The rules of a grammar, filed by what sets them off. -/
structure Program where
  start : NonterminalId := 0
  basic : Keyed Label NonterminalId := .empty
  prepend : Keyed NonterminalId UnaryStep := .empty
  append : Keyed NonterminalId UnaryStep := .empty
  insert : Keyed NonterminalId UnaryStep := .empty
  joins : Keyed NonterminalId (Join × Nat) := .empty

namespace Program

def fileBasic (nonterminals : Nonterminals) (rules : List BasicRule) :
    Nonterminals × Keyed Label NonterminalId :=
  rules.foldl
    (fun (nonterminals, filed) rule =>
      let (head, nonterminals) := nonterminals.intern rule.head
      (nonterminals, filed.push rule.label head))
    (nonterminals, .empty)

/-- Files a step under the nonterminal of its body. -/
def fileStep (state : Nonterminals × Keyed NonterminalId UnaryStep)
    (head body : Nonterminal) (label : Label) (index : Nat) :
    Nonterminals × Keyed NonterminalId UnaryStep :=
  let (nonterminals, filed) := state
  let (headId, nonterminals) := nonterminals.intern head
  let (bodyId, nonterminals) := nonterminals.intern body
  (nonterminals, filed.push bodyId ⟨headId, label, index⟩)

def fileExtensions (nonterminals : Nonterminals) (rules : List ExtensionRule) :
    Nonterminals × Keyed NonterminalId UnaryStep :=
  rules.foldl
    (fun state rule => fileStep state rule.head rule.body rule.label rule.index)
    (nonterminals, .empty)

def fileInsertions (nonterminals : Nonterminals) (rules : List InsertionRule) :
    Nonterminals × Keyed NonterminalId UnaryStep :=
  rules.foldl
    (fun state rule => fileStep state rule.head rule.body rule.label rule.index)
    (nonterminals, .empty)

/-- Files a concatenation under each of its body positions.  The head is
mentioned only when the rule is kept. -/
def fileConcatenation (arity : ConcatenationRule → Nat → Nat)
    (state : Nonterminals × Keyed NonterminalId (Join × Nat))
    (rule : ConcatenationRule) : Nonterminals × Keyed NonterminalId (Join × Nat) :=
  let (nonterminals, filed) := state
  if rule.bodies.isEmpty || rule.wiring.any List.isEmpty then
    state
  else
    let (bodies, nonterminals) := nonterminals.internAll rule.bodies
    if rule.wiring.flatten.any fun reference => bodies.length ≤ reference.body then
      (nonterminals, filed)
    else
      let (head, nonterminals) := nonterminals.intern rule.head
      let join : Join :=
        { head, bodies
          wiring := rule.wiring
          links := rule.links
          arities := (List.range bodies.length).map (arity rule) }
      (nonterminals, bodies.zipIdx.foldl
        (fun filed (body, position) => filed.push body (join, position)) filed)

/-- Files concatenations under the nonterminals of their bodies. -/
def fileConcatenations (arity : ConcatenationRule → Nat → Nat)
    (nonterminals : Nonterminals) (rules : List ConcatenationRule) :
    Nonterminals × Keyed NonterminalId (Join × Nat) :=
  rules.foldl (fileConcatenation arity) (nonterminals, .empty)

/-- Prepares a grammar with the given count of the segments that a concatenation
expects of a body.  The start nonterminal is mentioned first, then those of the
rules, shape by shape. -/
def compile (arity : ConcatenationRule → Nat → Nat) (grammar : Grammar) :
    Nonterminals × Program :=
  let (start, nonterminals) := Nonterminals.empty.intern Grammar.startName
  let (nonterminals, basic) := fileBasic nonterminals grammar.basic
  let (nonterminals, prepend) := fileExtensions nonterminals grammar.prepend
  let (nonterminals, append) := fileExtensions nonterminals grammar.append
  let (nonterminals, insert) := fileInsertions nonterminals grammar.insert
  let (nonterminals, joins) := fileConcatenations arity nonterminals grammar.concatenate
  (nonterminals, { start, basic, prepend, append, insert, joins })

/-- Prepares a grammar with arities of any size. -/
def ofGrammar (grammar : Grammar) : Nonterminals × Program :=
  compile ConcatenationRule.bodyArity grammar

/-- Prepares a grammar with arities in machine words. -/
def inWords (grammar : Grammar) : Nonterminals × Program :=
  compile ConcatenationRule.wordArity grammar

end Program

end GrammarReach
