/-!
# Families of analyses
-/

namespace GrammarReach

/-- The two kinds of questions asked about a graph. -/
inductive AnalysisFamily where
  | taint
  /-- Only pairs joined through a source and a sink bracket are of interest. -/
  | valueFlow
deriving DecidableEq, Repr

namespace AnalysisFamily

def name : AnalysisFamily → String
  | .taint => "taint"
  | .valueFlow => "value_flow"

def title : AnalysisFamily → String
  | .taint => "Taint"
  | .valueFlow => "ValueFlow"

def ofName (name : String) : Option AnalysisFamily :=
  match name with
  | "taint" => some .taint
  | "valueflow" => some .valueFlow
  | "value_flow" => some .valueFlow
  | "value-flow" => some .valueFlow
  | _ => none

end AnalysisFamily

end GrammarReach
