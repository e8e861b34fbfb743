import GrammarReach.Settings.Basic
import GrammarReach.Settings.JsonValue

/-!
# Reading settings

Settings are an object with a member for each choice that differs from the
default, or an array of the first few choices in order.  Other members are
skipped, but none of the known ones may be repeated.
-/

namespace GrammarReach

namespace JsonValue

/-- The name of a choice: a string, or an object with that one key and a null. -/
def choice? : JsonValue → Option String
  | .string content => content
  | .object [(key, .null)] => key
  | _ => none

def count? : JsonValue → Option Nat
  | .number (some value) => if value < Text.wordBound then some value else none
  | _ => none

end JsonValue

/-- The members of settings. -/
inductive SettingsField where
  | family
  | mode
  | parityClasses
  | alphaFamily
  | cacheClearInterval
deriving DecidableEq, Repr

namespace SettingsField

/-- The members in the order of the array form. -/
def all : List SettingsField :=
  [.family, .mode, .parityClasses, .alphaFamily, .cacheClearInterval]

def key : SettingsField → String
  | .family => "family"
  | .mode => "mode"
  | .parityClasses => "parity_classes"
  | .alphaFamily => "alpha_family"
  | .cacheClearInterval => "cache_clear_interval"

def ofKey (key : String) : Option SettingsField :=
  all.find? fun field => field.key == key

def choose {α : Type} (names : List (String × α)) (value : JsonValue) : Option α :=
  value.choice?.bind fun name => names.lookup name

/-- Puts the value of one member into settings. -/
def put (field : SettingsField) (value : JsonValue) (settings : Settings) : Option Settings :=
  match field with
  | .family =>
      let families := [AnalysisFamily.taint, .valueFlow].map fun family => (family.name, family)
      (choose families value).map fun family => { settings with family }
  | .mode =>
      let modes := [GrammarMode.classic, .augmented].map fun mode => (mode.name, mode)
      (choose modes value).map fun mode => { settings with mode }
  | .parityClasses => value.count?.map fun parityClasses => { settings with parityClasses }
  | .alphaFamily =>
      let families := [BracketFamily.parenthesis, .bracket].map fun family =>
        (family.name, family)
      (choose families value).map fun alphaFamily => { settings with alphaFamily }
  | .cacheClearInterval =>
      value.count?.map fun cacheClearInterval => { settings with cacheClearInterval }

end SettingsField

namespace Settings

/-- Puts the values of members into settings, one after the other. -/
def putAll (settings : Settings) : List (SettingsField × JsonValue) → Option Settings
  | [] => some settings
  | (field, value) :: rest =>
      match field.put value settings with
      | some settings => settings.putAll rest
      | none => none

/-- The known members among those of an object.  All keys have to be texts. -/
def knownMembers : List (Option String × JsonValue) → Option (List (SettingsField × JsonValue))
  | [] => some []
  | (none, _) :: _ => none
  | (some key, value) :: rest =>
      (knownMembers rest).map fun members =>
        match SettingsField.ofKey key with
        | some field => (field, value) :: members
        | none => members

def ofJsonValue : JsonValue → Option Settings
  | .object members =>
      match knownMembers members with
      | some known =>
          if (known.map (·.1)).Nodup then putAll {} known else none
      | none => none
  | .array values =>
      if values.length ≤ SettingsField.all.length then
        putAll {} (SettingsField.all.zip values)
      else
        none
  | _ => none

def read (text : String) : Except SettingsError Settings :=
  match (JsonValue.read text).bind ofJsonValue with
  | some settings => settings.validate
  | none => .error .malformed

end Settings

end GrammarReach
