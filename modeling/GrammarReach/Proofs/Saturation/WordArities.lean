import GrammarReach.Proofs.Saturation.Compilation
import GrammarReach.Saturation.Reachability

/-!
# Arities in machine words

A concatenation expects of a body one segment more than the highest one it refers to.  In
machine words this is zero for a reference to the last word.  A grammar without such a
reference is prepared, and solved, the same way in words.
-/

namespace GrammarReach

/-- One more than a segment that the rule refers to is a machine word. -/
def ConcatenationRule.InWords (rule : ConcatenationRule) : Prop :=
  ∀ reference ∈ rule.wiring.flatten, reference.segment + 1 < Text.wordBound

instance (rule : ConcatenationRule) : Decidable rule.InWords :=
  inferInstanceAs (Decidable (∀ reference ∈ rule.wiring.flatten, _))

/-- No rule refers to the last machine word as a segment. -/
def Grammar.InWords (grammar : Grammar) : Prop :=
  ∀ rule ∈ grammar.concatenate, rule.InWords

instance (grammar : Grammar) : Decidable grammar.InWords :=
  inferInstanceAs (Decidable (∀ rule ∈ grammar.concatenate, rule.InWords))

theorem ConcatenationRule.InWords.wordArity_eq {rule : ConcatenationRule}
    (inWords : rule.InWords) : rule.wordArity = rule.bodyArity := by
  funext position
  apply List.foldl_ext
  intro arity reference member
  simp only [Nat.mod_eq_of_lt (inWords reference member)]

namespace Grammar.InWords

variable {grammar : Grammar}

theorem program_eq (inWords : grammar.InWords) :
    Program.inWords grammar = Program.ofGrammar grammar := by
  have filed : ∀ nonterminals, Program.fileConcatenations ConcatenationRule.wordArity
      nonterminals grammar.concatenate = Program.fileConcatenations
        ConcatenationRule.bodyArity nonterminals grammar.concatenate := by
    intro nonterminals
    apply List.foldl_ext
    intro state rule member
    rw [Program.fileConcatenation, Program.fileConcatenation, (inWords rule member).wordArity_eq]
  rw [Program.inWords, Program.ofGrammar, Program.compile, Program.compile]
  simp only [filed]

theorem problem_eq (inWords : grammar.InWords) (graph : Graph) :
    Problem.inWords graph grammar = Problem.ofGrammar graph grammar := by
  rw [Problem.inWords, Problem.ofGrammar, inWords.program_eq]

theorem solve_eq (inWords : grammar.InWords) (graph : Graph) (options : SolveOptions) :
    solveInWords graph grammar options = solve graph grammar options := by
  rw [solveInWords, solve, inWords.problem_eq]

theorem represents (inWords : grammar.InWords) :
    (Program.inWords grammar).2.Represents (Program.inWords grammar).1 grammar :=
  inWords.program_eq ▸ Program.represents_ofGrammar grammar

end Grammar.InWords

/-- A rule that refers to the segment at the last machine word, which no derivation has. -/
def lastSegmentRule : ConcatenationRule :=
  ⟨"S", ["A"], [[⟨0, 0⟩, ⟨0, Text.wordBound - 1⟩, ⟨0, 0⟩]]⟩

def lastSegment : Grammar where
  basic := [⟨"A", "a"⟩]
  concatenate := [lastSegmentRule]

/-- One edge from 0 to 1. -/
def oneEdge : Graph :=
  .ofEdges [⟨0, 1, "a"⟩]

end GrammarReach
