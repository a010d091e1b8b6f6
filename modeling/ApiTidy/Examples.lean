import ApiTidy.Document.Edit
import ApiTidy.Change

/-!
Removing examples. Under keywords `example` and `examples` are removed; where a mapping gives names
to things, its keys are left alone.
-/
namespace ApiTidy.Examples

def isExampleKey (key : String) : Bool := key = "example" || key = "examples"

/-- The keywords whose mappings have names as keys. -/
def namingKeys : List String :=
  ["properties", "patternProperties", "dependentSchemas", "$defs", "definitions", "encoding",
    "mapping", "headers", "links", "callbacks", "variables", "scopes"]

def isNamingKey (key : String) : Bool := namingKeys.contains key

mutual

/-- Remove the examples of a tree whose keys are keywords. -/
def strip : Node → Node × Nat
  | .scalar value => (.scalar value, 0)
  | .sequence items =>
    let (changed, count) := stripItems items
    (.sequence changed, count)
  | .mapping entries =>
    let (changed, count) := stripEntries entries
    (.mapping changed, count)

def stripItems : List Node → List Node × Nat
  | [] => ([], 0)
  | item :: rest =>
    let (changed, count) := strip item
    let (changedRest, further) := stripItems rest
    (changed :: changedRest, count + further)

def stripEntries : List (String × Node) → List (String × Node) × Nat
  | [] => ([], 0)
  | (key, value) :: rest =>
    let (changedRest, further) := stripEntries rest
    if isExampleKey key then (changedRest, further + 1)
    else
      let (changed, count) := if isNamingKey key then stripNamed value else strip value
      ((key, changed) :: changedRest, count + further)

/-- Remove the examples of a tree whose keys are names. -/
def stripNamed : Node → Node × Nat
  | .scalar value => (.scalar value, 0)
  | .sequence items =>
    let (changed, count) := stripItems items
    (.sequence changed, count)
  | .mapping entries =>
    let (changed, count) := stripValues entries
    (.mapping changed, count)

def stripValues : List (String × Node) → List (String × Node) × Nat
  | [] => ([], 0)
  | (key, value) :: rest =>
    let (changed, count) := strip value
    let (changedRest, further) := stripValues rest
    ((key, changed) :: changedRest, count + further)

end

/-- Remove the examples below `paths` and below the categories of `components`. -/
def stripRegions : Change Node :=
  Change.andThen (Change.atField Document.pathsKey stripNamed)
    (Change.atField Document.componentsKey <| Change.inMapping <| Change.onValues fun _ =>
      stripNamed)

end ApiTidy.Examples
