import GrammarReach.Grammar.Rule
import GrammarReach.Text.Alphanumeric
import GrammarReach.Text.Pieces

/-!
# Atoms

The parts of a clause text.  An atom is a name with parenthesised arguments, and
each argument is a list of tokens.  A clause has a head atom and, after `:-`,
body atoms separated by commas.
-/

namespace GrammarReach

/-- A nonterminal with the tokens of its arguments. -/
structure Atom where
  name : Nonterminal
  arguments : List (List String)
deriving DecidableEq, Repr

/-- A head and the bodies it is derived from. -/
structure AtomClause where
  head : Atom
  bodies : List Atom
deriving DecidableEq, Repr

namespace Atom

def tokens (atom : Atom) : List String :=
  atom.arguments.flatten

def isNameCharacter (character : Char) : Bool :=
  Text.isAlphanumeric character || character == '_'

/-- The four blanks that may stand between the parts of a clause. -/
def isLayout (character : Char) : Bool :=
  character == ' ' || character == '\t' || character == '\r' || character == '\n'

def skipLayout (text : List Char) : List Char :=
  text.dropWhile isLayout

/-- A comma with a blank behind it ends an argument; any other comma does not. -/
def argumentTexts : List Char → List (List Char)
  | [] => [[]]
  | character :: rest =>
      if character = ',' ∧ rest.head?.any Text.isBlank then
        [] :: argumentTexts rest
      else
        Text.extendFirst character (argumentTexts rest)

/-- The tokens of one argument, which blanks and commas separate. -/
def tokensOf (argument : List Char) : List String :=
  (Text.fields (fun character => Text.isBlank character || character == ',')
    argument).map String.ofList

/-- Reads an atom from the front of a text and returns the rest. -/
def read (text : List Char) : Option (Atom × List Char) :=
  let text := skipLayout text
  let name := text.takeWhile isNameCharacter
  if name.isEmpty then
    none
  else
    match skipLayout (text.dropWhile isNameCharacter) with
    | '(' :: inside =>
        let isInner (character : Char) : Bool := character != '(' && character != ')'
        match inside.dropWhile isInner with
        | ')' :: rest =>
            let arguments := (argumentTexts (inside.takeWhile isInner)).map tokensOf
            some (⟨String.ofList name, arguments⟩, rest)
        | _ => none
    | _ => none

/-- Reads atoms separated by commas up to the end of a text.  Every atom takes
up characters, so the length of the text bounds their number. -/
def readBodies : Nat → List Char → Option (List Atom)
  | 0, _ => none
  | bound + 1, text =>
      match read text with
      | none => none
      | some (atom, rest) =>
          match skipLayout rest with
          | [] => some [atom]
          | ',' :: later => (readBodies bound later).map (atom :: ·)
          | _ => none

end Atom

/-- Reads a whole text as a clause without its full stop. -/
def AtomClause.read (text : List Char) : Option AtomClause :=
  match Atom.read text with
  | none => none
  | some (head, rest) =>
      match Atom.skipLayout rest with
      | [] => some ⟨head, []⟩
      | ':' :: '-' :: bodies =>
          (Atom.readBodies bodies.length bodies).map fun atoms => ⟨head, atoms⟩
      | _ => none

end GrammarReach
