import GrammarReach.Analysis.Family
import GrammarReach.Graph.EdgeList

/-!
# Invocations

What a user can ask for on the command line.
-/

namespace GrammarReach

/-- The form of result files. -/
inductive ReportFormat where
  | text
  | json
deriving DecidableEq, Repr

/-- Choices that every command accepts.  They take precedence over those of a
settings file. -/
structure SharedChoices where
  settingsFile : Option String := none
  family : Option AnalysisFamily := none
  parityClasses : Option Nat := none
  cacheClearInterval : Option Nat := none
  normalizer : Option String := none
deriving DecidableEq, Repr

namespace SharedChoices

/-- The choices of `inner`, and those of `outer` where `inner` has none. -/
def override (outer inner : SharedChoices) : SharedChoices where
  settingsFile := inner.settingsFile <|> outer.settingsFile
  family := inner.family <|> outer.family
  parityClasses := inner.parityClasses <|> outer.parityClasses
  cacheClearInterval := inner.cacheClearInterval <|> outer.cacheClearInterval
  normalizer := inner.normalizer <|> outer.normalizer

end SharedChoices

/-- What a command is given. -/
inductive Command where
  /-- Run the stages on graph files and on those below directories. -/
  | analyze (inputs : List String) (outDirectory : Option String) (format : ReportFormat)
      (withPaths : Bool)
  | grammar (file : String)
  /-- Print the answers of a grammar over a graph file or a word. -/
  | reach (graph : Option String) (grammar : String) (word : Option String)
      (style : LabelStyle) (out : Option String)
deriving DecidableEq, Repr

/-- A command with the shared choices. -/
structure Invocation where
  shared : SharedChoices := {}
  command : Command
deriving DecidableEq, Repr

end GrammarReach
