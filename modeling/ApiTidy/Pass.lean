import ApiTidy.Document.Prune
import ApiTidy.Alternatives
import ApiTidy.MediaTypes
import ApiTidy.Corrections
import ApiTidy.Examples
import ApiTidy.Nullable
import ApiTidy.Relocation
import ApiTidy.Responses
import ApiTidy.Parameters

/-! The passes: self-contained changes of a document that answer how many edits they made. -/
namespace ApiTidy

/-- A pass with what it takes from the configuration. -/
inductive Pass where
  | stripParameters (matchers : List ParameterMatcher)
  | simplifyContentTypes
  | backfillResponses (defaults : List FieldDefault)
  | relocatePaths (relocations : List Relocation)
  | applyFixes (fixes : List Fix)
  | extractComponents (extractions : List Extraction)
  | dedupeAlternatives
  | propagateOmitEmpty (marker : String)
  | stripExamples
  | pruneUnreachable (kinds : List ComponentKind)

namespace Pass

def name : Pass → PassName
  | stripParameters _ => .stripParameters
  | simplifyContentTypes => .simplifyContentTypes
  | backfillResponses _ => .backfillResponses
  | relocatePaths _ => .relocatePaths
  | applyFixes _ => .applyFixes
  | extractComponents _ => .extractComponents
  | dedupeAlternatives => .dedupeAlternatives
  | propagateOmitEmpty _ => .propagateOmitEmpty
  | stripExamples => .stripExamples
  | pruneUnreachable _ => .pruneUnreachable

def ofConfig (config : Config) : PassName → Pass
  | .stripParameters => stripParameters config.stripParameters
  | .simplifyContentTypes => simplifyContentTypes
  | .backfillResponses => backfillResponses config.responseDefaults
  | .relocatePaths => relocatePaths config.relocations
  | .applyFixes => applyFixes config.fixes
  | .extractComponents => extractComponents config.extract
  | .dedupeAlternatives => dedupeAlternatives
  | .propagateOmitEmpty => propagateOmitEmpty config.omitEmptyMarker
  | .stripExamples => stripExamples
  | .pruneUnreachable => pruneUnreachable config.prune

/-- A counted change of the tree as an edit of the document. -/
def changeRoot (change : Change Node) : Edit Failure Document Nat := fun doc =>
  let (changed, count) := change doc.root
  .ok count ⟨changed⟩

/-- Remove all examples: those below keywords, and the category of named ones. -/
def removeExamples : Edit Failure Document Nat := do
  let removed ← changeRoot Examples.stripRegions
  let doc ← get
  let _ ← Document.resetComponents .examples
  return removed + (doc.componentNames .examples).length

/-- Make the edits of a pass; the answer is how many they are. -/
def apply : Pass → Edit Failure Document Nat
  | stripParameters matchers => changeRoot (Parameters.strip matchers)
  | simplifyContentTypes => changeRoot MediaTypes.simplify
  | backfillResponses defaults => changeRoot (Responses.backfill defaults)
  | relocatePaths relocations => Edit.mapError .address (Relocation.applyAll relocations)
  | applyFixes fixes => Document.onAddresses (Fix.applyAll fixes)
  | extractComponents extractions => Extraction.applyAll extractions
  | dedupeAlternatives => changeRoot Alternatives.dedupe
  | propagateOmitEmpty marker => changeRoot (Nullable.mark marker)
  | stripExamples => removeExamples
  | pruneUnreachable kinds =>
    Edit.ofPair fun doc =>
      let (pruning, pruned) := doc.prune kinds
      (pruning.removed.length, pruned)

end Pass
end ApiTidy
