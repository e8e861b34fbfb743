import GrammarReach.Bracket.Label

/-!
# Grammars of bracket languages

A balanced grammar matches the brackets of one family and lets those of the other
pass as letters.  The parity grammar also counts the passing brackets, the
interleaved grammar matches both families in one stack, and the wrapper grammar
asks for one outer bracket around any word.
-/

namespace GrammarReach

namespace BracketLanguage

/-- The id of the bracket that wraps value flows. -/
def wrapperId : Nat := 0

/-- Words that pass no bracket of the counted family. -/
def uncountedName : Nonterminal := "Se"

def flatName : Nonterminal := "Sn"

/-- Flat words with the closing bracket of the wrapper behind them. -/
def closedName : Nonterminal := "S0"

/-- The nonterminal of matched pairs, which have an opening and a closing
segment. -/
def pairName : BracketFamily → Nonterminal
  | .parenthesis => "P"
  | .bracket => "B"

def openerName (family : BracketFamily) (id : Nat) : Nonterminal :=
  pairName family ++ "o" ++ Text.decimal id

/-- The grammar of the single rule that derives `name` from a label. -/
def letter (name : Nonterminal) (label : Label) : Grammar :=
  { basic := [⟨name, label⟩] }

/-- The grammar of the single rule with the given wiring, which is written as
pairs of body and segment. -/
def concatenation (name : Nonterminal) (bodies : List Nonterminal)
    (chain : List (Nat × Nat)) : Grammar :=
  { concatenate := [⟨name, bodies, [chain.map fun (body, segment) => ⟨body, segment⟩]⟩] }

/-- A `left` word followed by a `right` word is a `name` word. -/
def sequence (name left right : Nonterminal) : Grammar :=
  concatenation name [left, right] [(0, 0), (1, 0)]

/-- An `inner` word inside a matched pair of the family is a `name` word. -/
def wrap (name inner : Nonterminal) (family : BracketFamily) : Grammar :=
  concatenation name [inner, pairName family] [(1, 0), (0, 0), (1, 1)]

def rename (name source : Nonterminal) : Grammar :=
  concatenation name [source] [(0, 0)]

def unions (grammars : List Grammar) : Grammar where
  basic := grammars.flatMap (·.basic)
  prepend := grammars.flatMap (·.prepend)
  append := grammars.flatMap (·.append)
  insert := grammars.flatMap (·.insert)
  concatenate := grammars.flatMap (·.concatenate)

def matchedPairs (family : BracketFamily) (ids : List Nat) : Grammar where
  basic := ids.map fun id => ⟨openerName family id, family.openLabel id⟩
  insert := ids.map fun id =>
    ⟨pairName family, openerName family id, family.closeLabel id, 1, 1⟩

/-- Both brackets of every id as letters of `name`. -/
def letters (name : Nonterminal) (family : BracketFamily) (ids : List Nat) : Grammar where
  basic := ids.flatMap fun id =>
    [⟨name, family.openLabel id⟩, ⟨name, family.closeLabel id⟩]

/-- The epsilon label and `normal` as letters of `name`. -/
def neutralLetters (name : Nonterminal) : Grammar :=
  letter name Grammar.epsilon ++ letter name normalLabel

/-- The first grammar if there are ids, and no rules otherwise. -/
def ifAny (ids : List Nat) (grammar : Grammar) : Grammar :=
  if ids.isEmpty then .empty else grammar

/-- The words in which the brackets of `family` match, while those of the other
family are free. -/
def balanced (family : BracketFamily) (ids : List Nat) (passing : BracketFamily)
    (passingIds : List Nat) : Grammar :=
  let start := Grammar.startName
  unions [matchedPairs family ids, letters start passing passingIds, neutralLetters start,
    sequence start start start, ifAny ids (wrap start start family)]

/-- What the parity grammar knows of the passing brackets of a word: for each
class whether their number is odd, whether the first one closes, and whether the
last one opens. -/
structure ParityState where
  odd : List Bool
  closesFirst : Bool
  opensLast : Bool
deriving DecidableEq, Repr

namespace ParityState

/-- The nonterminal of a state: one letter per class, `i` for odd and `p` for
even, then `c` and `o` if they apply. -/
def name (state : ParityState) : Nonterminal :=
  Grammar.startName ++
    String.ofList (state.odd.map fun isOdd => if isOdd then 'i' else 'p') ++
    (if state.closesFirst then "c" else "") ++ (if state.opensLast then "o" else "")

/-- The state of a word made of two words. -/
def join (left right : ParityState) : ParityState where
  odd := left.odd.zipWith xor right.odd
  closesFirst := left.closesFirst
  opensLast := right.opensLast

/-- The classes of which the given number has a binary one, lowest digit first.  The digit
of a class is found by a shift, which counts its places modulo the width of a word. -/
def classBits (classes number : Nat) : List Bool :=
  (List.range classes).map fun place => number.testBit (place % Text.wordBits)

/-- All states, by their parities read as a number and then by their flags.  There are two
to the power of the number of classes of them, as a machine word computes it: a shift by
the width of a word or more starts again from one. -/
def all (classes : Nat) : List ParityState :=
  (List.range (1 <<< (classes % Text.wordBits))).flatMap fun number =>
    [(false, false), (false, true), (true, false), (true, true)].map
      fun (closesFirst, opensLast) => ⟨classBits classes number, closesFirst, opensLast⟩

/-- The state of a single bracket of a class. -/
def single (classes index : Nat) (closesFirst opensLast : Bool) : ParityState :=
  ⟨(List.range classes).map fun place => place % Text.wordBits == index % Text.wordBits,
    closesFirst, opensLast⟩

/-- Every class is even, the first passing bracket opens and the last closes. -/
def cancelled (classes : Nat) : ParityState :=
  ⟨List.replicate classes false, false, false⟩

end ParityState

/-- Puts an id in front of the first one that is larger. -/
def insertAscending (id : Nat) : List Nat → List Nat
  | [] => [id]
  | first :: rest => if id ≤ first then id :: first :: rest else first :: insertAscending id rest

def ascending (ids : List Nat) : List Nat :=
  ids.foldr insertAscending []

/-- The words in which the brackets of `family` match and in which the passing
brackets either do not occur or occur evenly often in each class, the first one
opening and the last one closing.  The class of a passing id is its place among
the sorted ids modulo the number of classes. -/
def parity (family : BracketFamily) (ids : List Nat) (passing : BracketFamily)
    (passingIds : List Nat) (classCount : Nat) : Grammar :=
  let classes := max classCount 1
  let start := Grammar.startName
  let states := ParityState.all classes
  let named := states.map fun state => (state, state.name)
  let passingLetters := (ascending passingIds).zipIdx.map fun (id, place) =>
    let state (closes : Bool) := ParityState.single classes (place % classes) closes !closes
    letter (state true).name (passing.closeLabel id) ++
      letter (state false).name (passing.openLabel id)
  let wraps := wrap uncountedName uncountedName family ::
    named.map fun (_, name) => wrap name name family
  let joins := named.flatMap fun (left, leftName) =>
    sequence leftName leftName uncountedName ::
      sequence leftName uncountedName leftName ::
      named.map fun (right, rightName) =>
        sequence (left.join right).name leftName rightName
  unions [matchedPairs family ids, neutralLetters uncountedName, unions passingLetters,
    ifAny ids (unions wraps), sequence uncountedName uncountedName uncountedName,
    unions joins, rename start uncountedName,
    rename start (ParityState.cancelled classes).name]

/-- The words in which both families match in one stack. -/
def interleaved (ids : BracketIds) : Grammar :=
  let start := Grammar.startName
  unions [matchedPairs .parenthesis ids.parenthesis, matchedPairs .bracket ids.bracket,
    neutralLetters start, sequence start start start,
    ifAny ids.parenthesis (wrap start start .parenthesis),
    ifAny ids.bracket (wrap start start .bracket)]

/-- The words that start with the opening and end with the closing bracket of the
wrapper, with any letters between. -/
def wrapper (ids : BracketIds) : Grammar :=
  let closing : ExtensionRule :=
    ⟨closedName, flatName, BracketFamily.bracket.closeLabel wrapperId, 0, 1⟩
  let opening : ExtensionRule :=
    ⟨Grammar.startName, closedName, BracketFamily.bracket.openLabel wrapperId, 0, 1⟩
  unions [neutralLetters flatName, letters flatName .parenthesis ids.parenthesis,
    letters flatName .bracket ids.bracket, sequence flatName flatName flatName,
    { append := [closing], prepend := [opening] }]

end BracketLanguage

/-- How much the two refining grammars know of passing brackets. -/
inductive GrammarMode where
  | classic
  | augmented
deriving DecidableEq, Repr

def GrammarMode.name : GrammarMode → String
  | .classic => "classic"
  | .augmented => "augmented"

/-- The choice of the two refining grammars: alpha balances `alphaFamily` and
beta the other family. -/
structure GrammarChoice where
  mode : GrammarMode := .classic
  alphaFamily : BracketFamily := .parenthesis
  parityClasses : Nat := 2
deriving DecidableEq, Repr

namespace GrammarChoice

/-- The grammar that balances a family in the chosen mode. -/
def balancing (choice : GrammarChoice) (family : BracketFamily) (ids : BracketIds) :
    Grammar :=
  let own := ids.ofFamily family
  let passing := ids.ofFamily family.other
  match choice.mode with
  | .classic => BracketLanguage.balanced family own family.other passing
  | .augmented =>
      BracketLanguage.parity family own family.other passing choice.parityClasses

def alpha (choice : GrammarChoice) (ids : BracketIds) : Grammar :=
  choice.balancing choice.alphaFamily ids

def beta (choice : GrammarChoice) (ids : BracketIds) : Grammar :=
  choice.balancing choice.alphaFamily.other ids

end GrammarChoice

end GrammarReach
