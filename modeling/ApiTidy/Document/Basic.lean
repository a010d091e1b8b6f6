import ApiTidy.Address.Basic
import ApiTidy.Reference.Basic

/-!
The view of a tree as an API description: `paths` holds a path item for each route, a path item
holds an operation for each method, and `components` holds the named components by category. Routes
and names are looked up as keys, so they may contain dots.
-/
namespace ApiTidy

/-- An API description. -/
structure Document where
  root : Node

namespace Document

def pathsKey : String := "paths"
def componentsKey : String := "components"

/-- The entries of a top-level mapping. -/
def region? (doc : Document) (key : String) : Option (Entries Node) :=
  (doc.root.field? key).bind Node.entries?

def paths (doc : Document) : Entries Node := (doc.region? pathsKey).getD []

def routes (doc : Document) : List String := Entries.keys doc.paths

def pathItem? (doc : Document) (route : String) : Option Node := Entries.get? doc.paths route

def routeAddress (route : String) : String := pathsKey ++ "." ++ route

def endpointAddress (route : String) (method : HttpMethod) : String :=
  routeAddress route ++ "." ++ method.key

def pathItem (doc : Document) (route : String) : Except AddressError Node :=
  match doc.pathItem? route with
  | some item => .ok item
  | none => .error (.missing (routeAddress route))

def endpoint? (doc : Document) (route : String) (method : HttpMethod) : Option Node :=
  (doc.pathItem? route).bind (·.field? method.key)

def endpoint (doc : Document) (route : String) (method : HttpMethod) :
    Except AddressError Node := do
  let item ← doc.pathItem route
  match item.field? method.key with
  | some operation => .ok operation
  | none => .error (.missing (endpointAddress route method))

/-- The operations of a path item: its entries under the name of a method. -/
def itemOperations (route : String) (item : Node) : List (String × HttpMethod × Node) :=
  (item.entries?.getD []).filterMap fun (key, operation) =>
    (HttpMethod.ofKey? key).map fun method => (route, method, operation)

def operations (doc : Document) : List (String × HttpMethod × Node) :=
  doc.paths.flatMap fun (route, item) => itemOperations route item

/-- The components of a category, if it is a mapping. -/
def components? (doc : Document) (kind : ComponentKind) : Option (Entries Node) :=
  ((doc.region? componentsKey).bind (Entries.get? · kind.key)).bind Node.entries?

def component? (doc : Document) (kind : ComponentKind) (name : String) : Option Node :=
  (doc.components? kind).bind (Entries.get? · name)

def componentNames (doc : Document) (kind : ComponentKind) : List String :=
  Entries.keys ((doc.components? kind).getD [])

/-- The component that a reference names. -/
def target? (doc : Document) (reference : Reference) : Option Node :=
  doc.component? reference.kind reference.name

def references (doc : Document) : List Reference := doc.root.references

/-- The references to components that are not there, in order and each once. -/
def danglingReferences (doc : Document) : List Reference :=
  Reference.ordered (doc.references.filter fun reference => (doc.target? reference).isNone)

end Document
end ApiTidy
