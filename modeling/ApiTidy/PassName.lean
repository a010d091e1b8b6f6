/-! The names of the passes. -/
namespace ApiTidy

inductive PassName where
  | stripParameters | simplifyContentTypes | backfillResponses | relocatePaths | applyFixes
  | extractComponents | dedupeAlternatives | propagateOmitEmpty | stripExamples | pruneUnreachable
  deriving DecidableEq, Repr

namespace PassName

/-- All passes, in the order in which they run. Components are removed last, because every other
pass may add or drop references. -/
def all : List PassName :=
  [stripParameters, simplifyContentTypes, backfillResponses, relocatePaths, applyFixes,
    extractComponents, dedupeAlternatives, propagateOmitEmpty, stripExamples, pruneUnreachable]

def text : PassName → String
  | stripParameters => "strip-parameters"
  | simplifyContentTypes => "simplify-content-types"
  | backfillResponses => "backfill-responses"
  | relocatePaths => "relocate-paths"
  | applyFixes => "apply-fixes"
  | extractComponents => "extract-components"
  | dedupeAlternatives => "dedupe-alternatives"
  | propagateOmitEmpty => "propagate-omit-empty"
  | stripExamples => "strip-examples"
  | pruneUnreachable => "prune-unreachable"

def ofText? (text : String) : Option PassName := all.find? (·.text = text)

def isKnown (text : String) : Bool := (ofText? text).isSome

end PassName
end ApiTidy
