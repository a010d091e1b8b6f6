import ApiTidy.Config.Basic
import ApiTidy.Document.Edit

/-! Moving routes below a base, and giving their operations the parameter that the base needs. -/
namespace ApiTidy.Relocation

/-- Equality of trees that may be missing. -/
def sameField : Option Node → Option Node → Bool
  | none, none => true
  | some a, some b => a.same b
  | _, _ => false

/-- Whether two parameters are one: by their pointers if both are references, else by name and
location. -/
def sameParameter (a b : Node) : Bool :=
  match a.refPointer?, b.refPointer? with
  | some left, some right => left = right
  | _, _ =>
    (a.field? "name").isSome && sameField (a.field? "name") (b.field? "name")
      && sameField (a.field? "in") (b.field? "in")

def ownParameters (operation : Entries Node) : Node :=
  (Entries.get? operation "parameters").getD (.sequence [])

/-- Append a parameter to those of an operation, unless it is among them. -/
def injectParameter (parameter : Node) (address : String) :
    Edit AddressError (Entries Node) Nat := fun operation =>
  match ownParameters operation with
  | .sequence parameters =>
    if parameters.any (sameParameter · parameter) then .ok 0 operation
    else
      .ok 1 (Entries.insert operation "parameters" (.sequence (parameters ++ [parameter])))
  | other => .error (.unexpectedShape address .sequence other.shape) operation

def injectIntoItem (parameter : Node) (route : String) : Edit AddressError Node Nat
  | .mapping item =>
    Edit.onPart item Node.mapping <| Edit.eachEntry fun key operation =>
      match HttpMethod.ofKey? key, operation with
      | some method, .mapping entries =>
        Edit.onPart entries Node.mapping <|
          injectParameter parameter (Document.endpointAddress route method ++ ".parameters")
      | _, other => .ok 0 other
  | other => .error (.unexpectedShape (Document.routeAddress route) .mapping other.shape) other

def moveRoute (relocation : Relocation) (route : String) :
    Edit AddressError Document Unit := do
  let target := relocation.target route
  Document.renameRoute route target
  let _ ← Document.editPathItem target (injectIntoItem relocation.parameter target)

def applyAll (relocations : List Relocation) : Edit AddressError Document Nat := do
  let listed := relocations.flatMap fun relocation => relocation.routes.map (relocation, ·)
  listed.forM fun (relocation, route) => moveRoute relocation route
  return listed.length

end ApiTidy.Relocation
