import ApiTidy.Config.Basic
import ApiTidy.Document.Basic
import ApiTidy.Change

/-! Removing parameters that the client of the interface supplies by itself. -/
namespace ApiTidy.Parameters

def key : String := "parameters"

/-- Remove the parameters of a list that some matcher accepts. -/
def stripList (matchers : List ParameterMatcher) : Change Node :=
  Change.inSequence <| Change.keepItems fun parameter => !matchers.any (·.accepts parameter)

def stripPathItem (matchers : List ParameterMatcher) : Change Node :=
  Change.inMapping <| Change.onValues fun field =>
    if field = key then stripList matchers
    else if (HttpMethod.ofKey? field).isSome then
      Change.atField key (stripList matchers)
    else Change.keep

def strip (matchers : List ParameterMatcher) : Change Node :=
  Change.atField Document.pathsKey <| Change.inMapping <| Change.onValues fun _ =>
    stripPathItem matchers

end ApiTidy.Parameters
