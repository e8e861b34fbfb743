import GrammarReach.Grammar.Rule
import GrammarReach.Text.Numeral

/-!
# Bracket labels

Labels of the form `op--3` are brackets: a role letter (`o` opens, `c` closes), a
family letter (`p` for parentheses, `b` for brackets), two minus signs and an id.
The label `normal` carries no bracket.
-/

namespace GrammarReach

/-- The two families of brackets. -/
inductive BracketFamily where
  | parenthesis
  | bracket
deriving DecidableEq, Repr

namespace BracketFamily

def tag : BracketFamily → Char
  | .parenthesis => 'p'
  | .bracket => 'b'

def ofTag : Char → Option BracketFamily
  | 'p' => some .parenthesis
  | 'b' => some .bracket
  | _ => none

def other : BracketFamily → BracketFamily
  | .parenthesis => .bracket
  | .bracket => .parenthesis

def name : BracketFamily → String
  | .parenthesis => "parenthesis"
  | .bracket => "bracket"

def labelWith (role : Char) (family : BracketFamily) (id : Nat) : Label :=
  String.ofList [role, family.tag, '-', '-'] ++ Text.decimal id

def openLabel (family : BracketFamily) (id : Nat) : Label :=
  labelWith 'o' family id

def closeLabel (family : BracketFamily) (id : Nat) : Label :=
  labelWith 'c' family id

end BracketFamily

/-- The label of edges that carry no bracket. -/
def normalLabel : Label := "normal"

/-- What a label says about brackets. -/
inductive BracketLabel where
  | epsilon
  | normal
  | opening (family : BracketFamily) (id : Nat)
  | closing (family : BracketFamily) (id : Nat)
  | other (label : Label)
deriving DecidableEq, Repr

namespace BracketLabel

/-- Reads a label.  Ids are numerals below `2 ^ 32`; a label that is no bracket
in this sense is read as itself. -/
def read (label : Label) : BracketLabel :=
  if label = Grammar.epsilon then
    .epsilon
  else if label = normalLabel then
    .normal
  else
    match label.toList with
    | role :: tag :: '-' :: '-' :: digits =>
        match BracketFamily.ofTag tag, Text.readNumeral Text.halfWordBound digits with
        | some family, some id =>
            if role = 'o' then .opening family id
            else if role = 'c' then .closing family id
            else .other label
        | _, _ => .other label
    | _ => .other label

/-- The written form of a label; brackets are written with the fewest digits. -/
def text : BracketLabel → Label
  | .epsilon => Grammar.epsilon
  | .normal => normalLabel
  | .opening family id => family.openLabel id
  | .closing family id => family.closeLabel id
  | .other label => label

/-- The bracket that closes or opens this one. -/
def partner? : BracketLabel → Option BracketLabel
  | .opening family id => some (.closing family id)
  | .closing family id => some (.opening family id)
  | _ => none

def bracket? : BracketLabel → Option (BracketFamily × Nat)
  | .opening family id => some (family, id)
  | .closing family id => some (family, id)
  | _ => none

end BracketLabel

/-- The ids of each family, in the order in which they were found. -/
structure BracketIds where
  parenthesis : List Nat := []
  bracket : List Nat := []
deriving DecidableEq, Repr

namespace BracketIds

def ofFamily (ids : BracketIds) : BracketFamily → List Nat
  | .parenthesis => ids.parenthesis
  | .bracket => ids.bracket

/-- Appends an id to those of its family. -/
def push (ids : BracketIds) (family : BracketFamily) (id : Nat) : BracketIds :=
  match family with
  | .parenthesis => { ids with parenthesis := ids.parenthesis ++ [id] }
  | .bracket => { ids with bracket := ids.bracket ++ [id] }

def isEmpty (ids : BracketIds) : Bool :=
  ids.parenthesis.isEmpty && ids.bracket.isEmpty

/-- The ids of the given brackets, in their order. -/
def ofBrackets (brackets : List (BracketFamily × Nat)) : BracketIds :=
  brackets.foldl (fun ids (family, id) => ids.push family id) {}

end BracketIds

end GrammarReach
