import GrammarReach.Grammar.Rule
import GrammarReach.Text.Numeral

/-!
# Clause text

The written form of rules.  Segment `i` of the first body is called `Xi`, of the
second `Yi`, and so on; arguments are separated by a comma and a space, and the
members of one argument by a space.
-/

namespace GrammarReach

namespace Clause

def epsilonToken : String := "eps"

/-- The letters of the variables of the first ten bodies. -/
def variableLetters : List String :=
  ["X", "Y", "Z", "V", "W", "Q", "R", "S", "T", "U"]

/-- The variable that names segment `segment` of body `body`. -/
def variableName (body segment : Nat) : String :=
  match variableLetters[body]? with
  | some letter => letter ++ Text.decimal segment
  | none => "A" ++ Text.decimal body ++ "_" ++ Text.decimal segment

def labelToken (label : Label) : String :=
  if label = Grammar.epsilon then epsilonToken else label

def variableNames (body arity : Nat) : List String :=
  (List.range arity).map (variableName body)

def atomText (name : Nonterminal) (arguments : List String) : String :=
  name ++ "(" ++ ", ".intercalate arguments ++ ")"

/-- A clause with one head and one or more bodies. -/
def ruleText (head : String) (bodies : List String) : String :=
  head ++ " :- " ++ ", ".intercalate bodies ++ "."

end Clause

open Clause

def BasicRule.text (rule : BasicRule) : String :=
  atomText rule.head [labelToken rule.label] ++ "."

/-- The written form of a rule that changes one argument of its body. -/
def ExtensionRule.textWith (rule : ExtensionRule) (extend : String → String) : String :=
  let arguments := (List.range rule.arity).map fun segment =>
    if segment = rule.index then extend (variableName 0 segment)
    else variableName 0 segment
  ruleText (atomText rule.head arguments) [atomText rule.body (variableNames 0 rule.arity)]

/-- The written form of a rule that puts a label before a segment. -/
def ExtensionRule.prependText (rule : ExtensionRule) : String :=
  rule.textWith fun name => labelToken rule.label ++ " " ++ name

/-- The written form of a rule that puts a label after a segment. -/
def ExtensionRule.appendText (rule : ExtensionRule) : String :=
  rule.textWith fun name => name ++ " " ++ labelToken rule.label

/-- The written form of an insertion; an index beyond the body's segments is
written behind the last one. -/
def InsertionRule.text (rule : InsertionRule) : String :=
  let arguments := (variableNames 0 rule.bodyArity).insertIdx
    (min rule.index rule.bodyArity) (labelToken rule.label)
  ruleText (atomText rule.head arguments)
    [atomText rule.body (variableNames 0 rule.bodyArity)]

def ConcatenationRule.text (rule : ConcatenationRule) : String :=
  let arguments := rule.wiring.map fun chain =>
    " ".intercalate (chain.map fun reference =>
      variableName reference.body reference.segment)
  let bodies := rule.bodies.zipIdx.map fun (name, position) =>
    atomText name (variableNames position (rule.bodyArity position))
  ruleText (atomText rule.head arguments) bodies

/-- The clause that a rule is written as. -/
def Rule.text : Rule → String
  | .basic rule => rule.text
  | .prepend rule => rule.prependText
  | .append rule => rule.appendText
  | .insert rule => rule.text
  | .concatenate rule => rule.text

/-- A line with dimension and rank, followed by one clause a line. -/
def Grammar.text (grammar : Grammar) : String :=
  let heading := Text.decimal grammar.dimension ++ "-dimensional MCFG of rank " ++
    Text.decimal grammar.rank
  "\n".intercalate (heading :: grammar.rules.map Rule.text)

end GrammarReach
