import GrammarReach.Derivation.Provenance
import GrammarReach.Saturation.Candidates

/-!
# Reachability by saturation

All derivations of a grammar over a graph.  The table is its own worklist: the
derivations are taken in the order of acceptance, each sets off its candidates,
and a candidate is accepted when it is new and each of its segments can be
followed by the next one along edges of any label.
-/

namespace GrammarReach

/-- What stays fixed during a run. -/
structure Problem where
  graph : Graph
  program : Program
  components : Components

/-- The state of a run: the table, how many of its derivations were taken, the
answers found and, if asked for, the provenance. -/
structure RunState where
  table : DerivationTable
  taken : Nat := 0
  spans : Array Span := #[]
  provenance : Option Provenance := none

instance : Inhabited RunState := ⟨{ table := default }⟩

namespace RunState

/-- The stop of each segment reaches the start of the next one. -/
def isConsistent (components : Components) (derivation : Derivation) : Bool :=
  (derivation.segments.zip derivation.segments.tail).all fun (left, right) =>
    components.reaches left.stop right.start

/-- Records what a candidate was made from under the place of its derivation. -/
def recordOrigin (provenance : Provenance) (id : DerivationId) (candidate : Candidate) :
    Provenance :=
  let provenance := match candidate.edge with
    | some edge => provenance.recordEdge id edge
    | none => provenance
  candidate.antecedents.foldl
    (fun provenance antecedent =>
      if antecedent = id then provenance else provenance.recordAntecedent id antecedent)
    provenance

/-- Accepts a consistent candidate; its origin is recorded even when its
derivation is known. -/
def offer (components : Components) (state : RunState) (candidate : Candidate) : RunState :=
  if isConsistent components candidate.derivation then
    let { table, taken, spans, provenance } := state
    let (id, _, table) := table.insert candidate.derivation
    { table, taken, spans
      provenance := provenance.map fun provenance => recordOrigin provenance id candidate }
  else
    state

/-- The candidates of the basic rules, edge by edge. -/
def seeds (graph : Graph) (program : Program) : List Candidate :=
  graph.edges.toList.flatMap fun edge =>
    (program.basic.row edge.label).toList.map fun head =>
      { derivation := ⟨head, [⟨edge.source, edge.target⟩]⟩, edge := some edge }

/-- Notes a derivation as an answer when it is a one-segment derivation of the
start nonterminal. -/
def noteAnswer (start : NonterminalId) (state : RunState) (id : DerivationId)
    (derivation : Derivation) : RunState :=
  match derivation.segments with
  | [span] =>
      if derivation.nonterminal = start then
        { state with
          spans := state.spans.push span
          provenance := state.provenance.map fun provenance =>
            provenance.recordRoot span id }
      else
        state
  | _ => state

/-- Takes the next derivation of the table, if there is one, and offers its
candidates. -/
def advance (problem : Problem) (state : RunState) : RunState :=
  match state.table.derivation? state.taken with
  | none => state
  | some derivation =>
      let id := state.taken
      let state := { noteAnswer problem.program.start state id derivation with taken := id + 1 }
      (Candidate.all problem.graph problem.program state.table id derivation).foldl
        (offer problem.components) state

def isFinished (state : RunState) : Bool :=
  state.table.size ≤ state.taken

/-- Advances until every derivation was taken.  A table that keeps growing is walked
forever. -/
def runOn (problem : Problem) (state : RunState) : RunState :=
  if state.isFinished then state else state.advance problem |>.runOn problem
partial_fixpoint

/-- Advances until every derivation was taken.  The counted steps are taken by
recursion on their number, which lets short runs be evaluated. -/
def run (problem : Problem) : Nat → RunState → RunState
  | 0, state => runOn problem state
  | counted + 1, state =>
      if state.isFinished then state else run problem counted (state.advance problem)

end RunState

/-- What is asked of a run besides its answers. -/
structure SolveOptions where
  recordProvenance : Bool := true
deriving DecidableEq, Repr

/-- The outcome of a run: the answers in the order of discovery, all derivations,
and the provenance if it was asked for. -/
structure Reachability where
  spans : List Span
  derivations : DerivationTable
  provenance : Option Provenance

namespace Reachability

def spanSet (reachability : Reachability) : SpanSet :=
  Std.TreeSet.ofList reachability.spans

def contains (reachability : Reachability) (span : Span) : Bool :=
  reachability.spans.contains span

end Reachability

namespace Problem

def ofGrammar (graph : Graph) (grammar : Grammar) : Nonterminals × Problem :=
  let (nonterminals, program) := Program.ofGrammar grammar
  (nonterminals, ⟨graph, program, Components.ofGraph graph⟩)

/-- The problem of a grammar whose arities are counted in machine words. -/
def inWords (graph : Graph) (grammar : Grammar) : Nonterminals × Problem :=
  let (nonterminals, program) := Program.inWords grammar
  (nonterminals, ⟨graph, program, Components.ofGraph graph⟩)

/-- The state of a run before any derivation was taken. -/
def initial (problem : Problem) (nonterminals : Nonterminals) (options : SolveOptions) :
    RunState :=
  (RunState.seeds problem.graph problem.program).foldl
    (RunState.offer problem.components)
    { table := .ofNonterminals nonterminals
      provenance := if options.recordProvenance then some .empty else none }

end Problem

/-- The number of steps that a run counts. -/
def Problem.countedSteps : Nat := 65536

/-- The outcome of a run from the first derivations on. -/
def Problem.reachability (problem : Problem) (nonterminals : Nonterminals)
    (options : SolveOptions) : Reachability :=
  let state := (problem.initial nonterminals options).run problem Problem.countedSteps
  { spans := state.spans.toList
    derivations := state.table
    provenance := state.provenance }

/-- Computes all derivations of a grammar over a graph. -/
def solve (graph : Graph) (grammar : Grammar) (options : SolveOptions := {}) : Reachability :=
  let (nonterminals, problem) := Problem.ofGrammar graph grammar
  problem.reachability nonterminals options

/-- Computes all derivations with arities in machine words.  This is `solve` for
grammars that do not refer to the last word as a segment. -/
def solveInWords (graph : Graph) (grammar : Grammar) (options : SolveOptions := {}) :
    Reachability :=
  let (nonterminals, problem) := Problem.inWords graph grammar
  problem.reachability nonterminals options

end GrammarReach
