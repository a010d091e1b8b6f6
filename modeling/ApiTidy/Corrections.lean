import ApiTidy.Config.Basic
import ApiTidy.Document.Edit

/-! Corrections of a document at addresses that must be there, and extractions of schemas. -/
namespace ApiTidy

/-- Make one correction of a tree. -/
def Correction.apply : Correction → Edit AddressError Node Unit
  | .delete path => do let _ ← Node.delete path
  | .set path value => Node.set path value
  | .move source target => Node.move source target

/-- Make the corrections one after another; the answer is how many there are. -/
def Fix.applyAll (fixes : List Fix) : Edit AddressError Node Nat := do
  fixes.forM (·.correction.apply)
  return fixes.length

/-- Extract the schemas one after another; the answer is how many there are. -/
def Extraction.applyAll (extractions : List Extraction) : Edit Failure Document Nat := do
  extractions.forM fun extraction => do
    let _ ← Document.extractSchema extraction.name extraction.path
  return extractions.length

end ApiTidy
