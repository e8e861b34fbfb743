import GrammarReach.Grammar.Atom
import GrammarReach.Grammar.Printer

/-!
# Rules from clauses

The shape of a clause decides which rule it is.  A clause without bodies is a
basic rule; one body of the same arity gives a prepend or append rule, one body
of another arity an insertion; everything else is a concatenation, in which
bodies called `Eps` stand for the empty word and are dropped.
-/

namespace GrammarReach

/-- The reasons for which a text is no clause. -/
inductive ClauseError where
  | malformed (text : String)
  | terminalCount (head : Nonterminal)
  | argumentCount (head : Nonterminal)
  | severalExtended (head : Nonterminal)
  | insertedSegment (head : Nonterminal)
  | severalInserted (head : Nonterminal)
  | noBody (head : Nonterminal)
  | compoundBodyArgument (head : Nonterminal)
  | unbound (token : String)
  | emptyArgument (index : Nat) (head : Nonterminal)
deriving DecidableEq, Repr

namespace ClauseError

def quoted (name : String) : String :=
  "`" ++ name ++ "`"

def message : ClauseError → String
  | .malformed text => "malformed clause " ++ quoted text
  | .terminalCount head => quoted head ++ " must carry exactly one terminal"
  | .argumentCount head => quoted head ++ " must have exactly one argument"
  | .severalExtended head => quoted head ++ " extends more than one segment"
  | .insertedSegment head => quoted head ++ " must insert exactly one terminal segment"
  | .severalInserted head => quoted head ++ " inserts more than one segment"
  | .noBody head => quoted head ++ " has no non-empty body"
  | .compoundBodyArgument head =>
      "body arguments of " ++ quoted head ++ " must be single variables"
  | .unbound token => "variable " ++ quoted token ++ " is not bound by any body"
  | .emptyArgument index head =>
      "argument " ++ Text.decimal index ++ " of " ++ quoted head ++ " has no variables"

end ClauseError

namespace AtomClause

/-- The label that a token is the written form of. -/
def labelOf (token : String) : Label :=
  if token = Clause.epsilonToken then Grammar.epsilon else token

def basicRule (head : Atom) : Except ClauseError Rule :=
  match head.arguments with
  | [[token]] => .ok (.basic ⟨head.name, labelOf token⟩)
  | [_] => .error (.terminalCount head.name)
  | _ => .error (.argumentCount head.name)

/-- The body segment that a variable names, in the first body that has it. -/
def locate (bodies : List Atom) (token : String) : Option SegmentRef :=
  bodies.zipIdx.findSome? fun (atom, body) =>
    (atom.arguments.findIdx? (·.head? = some token)).map fun segment => ⟨body, segment⟩

/-- The chain of references that one head argument stands for, without the
variables of the empty word. -/
def chainOf (bodies : List Atom) (emptyTokens tokens : List String) :
    Except ClauseError (List SegmentRef) :=
  (tokens.filter fun token => !emptyTokens.contains token).mapM fun token =>
    match locate bodies token with
    | some reference => .ok reference
    | none => .error (.unbound token)

/-- The rule of a clause that only rearranges the segments of its bodies. -/
def concatenationRule (head : Atom) (atoms : List Atom) : Except ClauseError Rule := do
  let isEmptyWord (atom : Atom) : Bool := atom.name == Grammar.emptyWordName
  let emptyTokens := (atoms.filter isEmptyWord).flatMap Atom.tokens
  let bodies := atoms.filter fun atom => !isEmptyWord atom
  if bodies.isEmpty then
    throw (.noBody head.name)
  if bodies.any fun atom => atom.arguments.any (·.length != 1) then
    throw (.compoundBodyArgument head.name)
  let wiring ← head.arguments.zipIdx.mapM fun (tokens, index) => do
    let chain ← chainOf bodies emptyTokens tokens
    if chain.isEmpty then
      throw (.emptyArgument index head.name)
    return chain
  return .concatenate ⟨head.name, bodies.map (·.name), wiring⟩

/-- The rule of a clause with one body. -/
def unaryRule (head body : Atom) : Except ClauseError Rule :=
  let isVariable (token : String) : Bool := body.tokens.contains token
  let arity := body.arguments.length
  if head.arguments.length = arity then
    match head.arguments.zipIdx.filter fun (tokens, _) => 1 < tokens.length with
    | [] => concatenationRule head [body]
    | [([first, second], index)] =>
        if isVariable first && !isVariable second then
          .ok (.append ⟨head.name, body.name, labelOf second, index, arity⟩)
        else if !isVariable first && isVariable second then
          .ok (.prepend ⟨head.name, body.name, labelOf first, index, arity⟩)
        else
          concatenationRule head [body]
    | [_] => concatenationRule head [body]
    | _ => .error (.severalExtended head.name)
  else
    match head.arguments.zipIdx.filter fun (tokens, _) =>
        tokens.head?.any fun token => !isVariable token with
    | [] => concatenationRule head [body]
    | [([token], index)] =>
        if head.arguments.length = arity + 1 then
          .ok (.insert ⟨head.name, body.name, labelOf token, index, arity⟩)
        else
          .error (.insertedSegment head.name)
    | [_] => .error (.insertedSegment head.name)
    | _ => .error (.severalInserted head.name)

def toRule (clause : AtomClause) : Except ClauseError Rule :=
  match clause.bodies with
  | [] => basicRule clause.head
  | [body] => unaryRule clause.head body
  | bodies => concatenationRule clause.head bodies

end AtomClause

/-- The part of a text before its first full stop, or all of it. -/
def Clause.beforeStop (text : List Char) : List Char :=
  match Text.cutAt '.' text with
  | some (before, _) => before
  | none => text

/-- Reads one clause.  Blanks around it and everything from its full stop on
are ignored. -/
def Rule.read (text : String) : Except ClauseError Rule :=
  let clauseText := Clause.beforeStop (Text.trim text.toList)
  match AtomClause.read clauseText with
  | none => .error (.malformed (String.ofList clauseText))
  | some clause => clause.toRule

/-- The reasons for which a text is no grammar. -/
inductive GrammarError where
  /-- The clause on the given line, counted from one, cannot be read. -/
  | clause (line : Nat) (cause : ClauseError)
  /-- The text could not be brought into normal form. -/
  | normalization (reason : String)
  | program (name : String) (reason : String)
deriving DecidableEq, Repr

def GrammarError.message : GrammarError → String
  | .clause line cause =>
      "parse error on line " ++ Text.decimal line ++ ": " ++ cause.message
  | .normalization reason => "grammar normalization failed: " ++ reason
  | .program name reason =>
      "failed to run grammar normalizer " ++ ClauseError.quoted name ++ ": " ++ reason

/-- Lines without a full stop, and lines that start with a minus sign after
their leading blanks, hold no clause. -/
def Clause.isClauseLine (line : List Char) : Bool :=
  let trimmed := Text.trim line
  trimmed.head? != some '-' && trimmed.contains '.'

def Grammar.read (text : String) : Except GrammarError Grammar := do
  let clauseLines := (Text.lines text.toList).zipIdx.filter fun (line, _) =>
    Clause.isClauseLine line
  let rules ← clauseLines.mapM fun (line, index) =>
    match Rule.read (String.ofList line) with
    | .ok rule => .ok rule
    | .error cause => .error (GrammarError.clause (index + 1) cause)
  return Grammar.ofRules rules

end GrammarReach
