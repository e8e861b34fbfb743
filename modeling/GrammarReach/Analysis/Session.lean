import GrammarReach.Bracket.Matching
import GrammarReach.Graph.Content
import GrammarReach.Saturation.Reachability
import GrammarReach.Settings.Basic

/-!
# Analysis sessions

A session runs the alpha and the beta grammar on bracket components and remembers
the results under the hash of the component's graph.  The results depend on the
grammar mode, so they are forgotten when the mode changes.
-/

namespace GrammarReach

/-- The two refining grammars. -/
inductive RefiningSide where
  | alpha
  | beta
deriving DecidableEq, Repr

/-- The answers of a refining grammar and the provenance that supports them. -/
structure SideResult where
  spans : List Span
  provenance : Provenance

namespace RefiningSide

/-- The grammar of a side for the given ids. -/
def grammar (side : RefiningSide) (choice : GrammarChoice) (ids : BracketIds) : Grammar :=
  match side with
  | .alpha => choice.alpha ids
  | .beta => choice.beta ids

/-- Runs the grammar of a side on a component.  The provenance keeps what supports
the answers. -/
def solve (side : RefiningSide) (choice : GrammarChoice) (component : BracketComponent) :
    SideResult :=
  let found := GrammarReach.solve component.graph (side.grammar choice component.ids)
  let provenance := found.provenance.getD .empty
  { spans := found.spans
    provenance := (provenance.retainSupporting found.spans).2 }

end RefiningSide

/-- What a session did so far. -/
structure SessionCounts where
  solverRuns : Nat := 0
  memoHits : Nat := 0
  memoClears : Nat := 0
deriving DecidableEq, Repr

/-- The results of a side under the hash of the solved graph. -/
abbrev SideMemo := Std.TreeMap UInt64 SideResult

/-- An analysis session. -/
structure Session where
  settings : Settings
  mode : GrammarMode
  alphaMemo : SideMemo := ∅
  betaMemo : SideMemo := ∅
  counts : SessionCounts := {}
  /-- The graphs that results were asked for, the latest first.  Nothing is decided
  by them; they tell whose hashes have met. -/
  asked : List Graph := []

namespace Session

/-- A session in the mode that the settings ask for. -/
def ofSettings (settings : Settings) : Session where
  settings := settings
  mode := settings.mode

def clearMemo (session : Session) : Session :=
  { session with
    alphaMemo := ∅
    betaMemo := ∅
    counts.memoClears := session.counts.memoClears + 1 }

/-- Switches the mode and forgets the results of another mode. -/
def setMode (session : Session) (mode : GrammarMode) : Session :=
  if mode = session.mode then session else ({ session with mode }).clearMemo

def memoSize (session : Session) : Nat :=
  session.alphaMemo.size + session.betaMemo.size

/-- The choice of grammars in the current mode. -/
def grammars (session : Session) : GrammarChoice :=
  session.settings.grammars session.mode

def memo (session : Session) : RefiningSide → SideMemo
  | .alpha => session.alphaMemo
  | .beta => session.betaMemo

def remember (session : Session) (side : RefiningSide) (key : UInt64) (result : SideResult) :
    Session :=
  match side with
  | .alpha => { session with alphaMemo := session.alphaMemo.insert key result }
  | .beta => { session with betaMemo := session.betaMemo.insert key result }

/-- The result of a side on a component, remembered or computed. -/
def solve (session : Session) (side : RefiningSide) (component : BracketComponent) :
    SideResult × Session :=
  let key := component.graph.contentHash
  let memo := session.memo side
  let session := { session with asked := component.graph :: session.asked }
  match memo[key]? with
  | some result =>
      (result, { session with counts.memoHits := session.counts.memoHits + 1 })
  | none =>
      let result := side.solve session.grammars component
      (result,
        { session with counts.solverRuns := session.counts.solverRuns + 1 }.remember side key
          result)

end Session

end GrammarReach
