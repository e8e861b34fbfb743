import GrammarReach.Analysis.Stages

/-!
# Reports

A report counts the answers of every stage.
-/

namespace GrammarReach

/-- The numbers of answers of the stages. -/
structure Report where
  regularization : Nat := 0
  intersection : Nat := 0
  underApproximation : Nat := 0
  mutualRefinement : Nat := 0
  strongerGrammar : Nat := 0
  onDemand : Nat := 0
deriving DecidableEq, Repr

def StageResults.report (results : StageResults) : Report where
  regularization := results.regularization.size
  intersection := results.intersection.size
  underApproximation := results.underApproximation.size
  mutualRefinement := results.classic.size
  strongerGrammar := results.augmented.size
  onDemand := results.onDemand.size

namespace Report

def titled (report : Report) : List (String × Nat) :=
  [("Regularization", report.regularization), ("Intersection", report.intersection),
    ("Underapproximation", report.underApproximation),
    ("Mutual refinement", report.mutualRefinement),
    ("Stronger Grammar", report.strongerGrammar), ("On-Demand", report.onDemand)]

def keyed (report : Report) : List (String × Nat) :=
  [("regularization", report.regularization), ("intersection", report.intersection),
    ("under_approximation", report.underApproximation),
    ("mutual_refinement", report.mutualRefinement),
    ("stronger_grammar", report.strongerGrammar), ("on_demand", report.onDemand)]

def lines (report : Report) : List String :=
  report.titled.map fun (title, count) => title ++ ": " ++ Text.decimal count

/-- The lines of a report as one text. -/
def text (report : Report) : String :=
  String.join (report.lines.map (· ++ "\n"))

end Report

end GrammarReach
