/-!
# Phases

The steps of a survey, in the order in which they run.
-/
namespace CodeSurvey

inductive Phase where
  | listing
  | extraction
  | imports
  | calls
  | analysis
  | complexity
  | workspaces
  deriving DecidableEq, Repr

namespace Phase

def name : Phase → String
  | .listing => "structure"
  | .extraction => "extraction"
  | .imports => "imports"
  | .calls => "calls"
  | .analysis => "analysis"
  | .complexity => "complexity"
  | .workspaces => "workspaces"

def label : Phase → String
  | .listing => "Mapping file tree"
  | .extraction => "Extracting symbols"
  | .imports => "Resolving imports"
  | .calls => "Building call graph"
  | .analysis => "Finding cycles and dead code"
  | .complexity => "Scoring complexity"
  | .workspaces => "Mapping workspaces"

end Phase

end CodeSurvey
