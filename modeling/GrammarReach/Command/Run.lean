import GrammarReach.Command.Analyze
import GrammarReach.Command.Arguments
import GrammarReach.Command.Help
import GrammarReach.Command.Solve

/-!
# Running a command line
-/

namespace GrammarReach

namespace CommandLine

variable {m : Type → Type} [Monad m]

def run (storage : Storage m) (invocation : Invocation) : m Outcome :=
  match invocation.command with
  | .analyze inputs outDirectory format withPaths =>
      runAnalyze storage invocation.shared inputs outDirectory format withPaths
  | .grammar file => runGrammar storage invocation.shared file
  | .reach graph grammar word style out =>
      runReach storage invocation.shared graph grammar word style out

/-- The outcome when there is nothing to run. -/
def stopOutcome : ArgumentStop → Outcome
  | .rejected => { exitCode := 2, notices := usageHint }
  | .help topic full => { output := topic.text full }
  | .version => { output := versionLine }

def runArguments (storage : Storage m) (arguments : List String) : m Outcome :=
  match Invocation.read arguments with
  | .error stop => return stopOutcome stop
  | .ok invocation => run storage invocation

end CommandLine

end GrammarReach
