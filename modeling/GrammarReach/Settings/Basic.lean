import GrammarReach.Analysis.Family
import GrammarReach.Bracket.Language

/-!
# Settings of an analysis
-/

namespace GrammarReach

/-- What can be chosen about an analysis. -/
structure Settings where
  family : AnalysisFamily := .taint
  mode : GrammarMode := .classic
  /-- The number of classes that the parity grammar counts. -/
  parityClasses : Nat := 2
  /-- The bracket family that the alpha grammar balances. -/
  alphaFamily : BracketFamily := .parenthesis
  /-- The number of single questions after which results are forgotten. -/
  cacheClearInterval : Nat := 100
deriving DecidableEq, Repr

/-- Why settings cannot be used. -/
inductive SettingsError where
  /-- The text is not JSON or does not have the form of settings. -/
  | malformed
  | noParityClasses
  | noClearInterval
  | unknownFamily (name : String)
deriving DecidableEq, Repr

namespace SettingsError

def reason : SettingsError → String
  | .malformed => "the settings are malformed"
  | .noParityClasses => "parity_classes must be at least 1"
  | .noClearInterval => "cache_clear_interval must be at least 1"
  | .unknownFamily name => "unknown analysis family `" ++ name ++ "`"

def message (error : SettingsError) : String :=
  "invalid configuration: " ++ error.reason

end SettingsError

/-- The family that goes by a name, or the message that there is none. -/
def AnalysisFamily.read (name : String) : Except SettingsError AnalysisFamily :=
  match AnalysisFamily.ofName name with
  | some family => .ok family
  | none => .error (.unknownFamily name)

namespace Settings

/-- Settings count at least one class and ask at least one question between two
clearings. -/
def validate (settings : Settings) : Except SettingsError Settings :=
  if settings.parityClasses = 0 then .error .noParityClasses
  else if settings.cacheClearInterval = 0 then .error .noClearInterval
  else .ok settings

/-- The settings have a class to count and an interval to clear after. -/
def IsValid (settings : Settings) : Prop :=
  0 < settings.parityClasses ∧ 0 < settings.cacheClearInterval

instance (settings : Settings) : Decidable settings.IsValid :=
  inferInstanceAs (Decidable (_ ∧ _))

def grammars (settings : Settings) (mode : GrammarMode) : GrammarChoice where
  mode := mode
  alphaFamily := settings.alphaFamily
  parityClasses := settings.parityClasses

end Settings

end GrammarReach
