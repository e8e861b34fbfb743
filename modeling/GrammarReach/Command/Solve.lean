import GrammarReach.Command.Invocation
import GrammarReach.Command.Outcome
import GrammarReach.Saturation.Reachability

/-!
# Grammars and their answers

Printing a grammar in normal form, and printing the answers of a grammar over a
graph or a word.
-/

namespace GrammarReach

namespace CommandLine

variable {m : Type → Type} [Monad m]

def chosenNormalizer (shared : SharedChoices) : Except Failure Normalizer :=
  match shared.normalizer with
  | none => .ok .check
  | some line =>
      match FilterCommand.read line with
      | some command => .ok (.filter command)
      | none => .error { message := "--normalizer needs a program name" }

def readGrammar (storage : Storage m) (normalizer : Normalizer) (path : String) :
    m (Except Failure Grammar) := do
  match ← storage.readText path with
  | .error reason => return .error ((Failure.ofFile reason).during ("reading " ++ path))
  | .ok text =>
      match ← normalizer.load storage text with
      | .ok grammar => return .ok grammar
      | .error reason =>
          return .error ((Failure.ofGrammar reason).during ("loading grammar " ++ path))

def grammarLine (grammar : Grammar) : String :=
  "% dimension " ++ Text.decimal grammar.dimension ++ ", rank " ++ Text.decimal grammar.rank ++
    ", " ++ Text.decimal grammar.size ++ " rule(s)\n"

def runGrammar (storage : Storage m) (shared : SharedChoices) (file : String) :
    m Outcome := do
  match chosenNormalizer shared with
  | .error failure => return failure.outcome
  | .ok normalizer =>
      match ← readGrammar storage normalizer file with
      | .error failure => return failure.outcome
      | .ok grammar => return { output := grammarLine grammar ++ grammar.text }

/-- The graph to be solved: one that spells the word, or the one of the file. -/
def chosenGraph (storage : Storage m) (graph word : Option String) (style : LabelStyle) :
    m (Except Failure Graph) :=
  match word, graph with
  | some word, _ => return .ok (.spelling word)
  | none, some path => do
      match ← storage.readText path with
      | .error reason => return .error (.ofReading path reason)
      | .ok text => return .ok (Graph.read style text).graph
  | none, none => return .error { message := "give a graph file or --word" }

def solvedLine (found : Reachability) : String :=
  "ok " ++ Text.decimal found.spans.length ++ " path(s), " ++
    Text.decimal found.derivations.size ++ " derivation(s)\n"

/-- Prints the answers, or writes them to a file. -/
def deliver (storage : Storage m) (out : Option String) (found : Reachability) :
    m Outcome := do
  let text := Span.listText found.spans
  match out with
  | none => return { output := text, notices := solvedLine found }
  | some path =>
      match ← storage.writeText path text with
      | .error reason => return ((Failure.ofFile reason).during ("writing " ++ path)).outcome
      | .ok _ => return { notices := "wrote " ++ path ++ "\n" ++ solvedLine found }

/-- Solves a grammar over a graph file or a word. -/
def runReach (storage : Storage m) (shared : SharedChoices) (graph : Option String)
    (grammar : String) (word : Option String) (style : LabelStyle) (out : Option String) :
    m Outcome := do
  match chosenNormalizer shared with
  | .error failure => return failure.outcome
  | .ok normalizer =>
      match ← readGrammar storage normalizer grammar with
      | .error failure => return failure.outcome
      | .ok grammar =>
          match ← chosenGraph storage graph word style with
          | .error failure => return failure.outcome
          | .ok graph =>
              deliver storage out (solve graph grammar { recordProvenance := false })

end CommandLine

end GrammarReach
