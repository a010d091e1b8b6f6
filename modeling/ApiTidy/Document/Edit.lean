import ApiTidy.Address.Edit
import ApiTidy.Document.Basic
import ApiTidy.Failure

/-! Edits of a document through its typed view. -/
namespace ApiTidy.Document
variable {ε α : Type}

/-- The document of a tree, whose root must be a mapping. -/
def ofNode (root : Node) : Except Failure Document :=
  match root with
  | .mapping _ => .ok ⟨root⟩
  | other => .error (.document (.rootShape other.shape))

def onRoot (edit : Edit ε Node α) : Edit ε Document α := fun doc =>
  Edit.onPart doc.root Document.mk edit

def onAddresses (edit : Edit AddressError Node α) : Edit Failure Document α :=
  onRoot (Edit.mapError .address edit)

/-- Edit the entries of a mapping under a key, or answer without an edit if there is none. -/
def inField (key : String) (absent : Edit ε Node α) (edit : Edit ε (Entries Node) α) :
    Edit ε Node α
  | .mapping entries =>
    match Entries.get? entries key with
    | some (.mapping inner) =>
      Edit.onPart inner (fun changed => .mapping (Entries.insert entries key (.mapping changed)))
        edit
    | _ => absent (.mapping entries)
  | node => absent node

def editPathItem (route : String) (edit : Edit AddressError Node α) :
    Edit AddressError Document α :=
  let missing : Edit AddressError Node α := throw (.missing (routeAddress route))
  onRoot <| inField pathsKey missing fun paths =>
    match Entries.get? paths route with
    | some item => Edit.onPart item (fun changed => Entries.insert paths route changed) edit
    | none => .error (.missing (routeAddress route)) paths

/-- Put an operation in the place of one that must be there; the answer is the old one. -/
def replaceEndpoint (route : String) (method : HttpMethod) (operation : Node) :
    Edit AddressError Document Node :=
  editPathItem route fun
    | .mapping item =>
      match Entries.get? item method.key with
      | some old => .ok old (.mapping (Entries.insert item method.key operation))
      | none => .error (.missing (endpointAddress route method)) (.mapping item)
    | other => .error (.missing (endpointAddress route method)) other

def replacePathItem (route : String) (item : Node) : Edit AddressError Document Node :=
  editPathItem route fun old => .ok old item

def editItemOperations (edit : HttpMethod → Edit ε Node Nat) : Edit ε Node Nat
  | .mapping item =>
    Edit.onPart item Node.mapping <| Edit.eachEntry fun key =>
      match HttpMethod.ofKey? key with
      | some method => edit method
      | none => pure 0
  | other => .ok 0 other

/-- Edit every operation in document order, up to the first failure. -/
def editOperations (edit : String → HttpMethod → Edit ε Node Nat) : Edit ε Document Nat :=
  onRoot <| inField pathsKey (pure 0) <|
    Edit.eachEntry fun route => editItemOperations (edit route)

/-- Give a route another name. It keeps its place; a route that had that name already is lost. -/
def renameRoute (source target : String) : Edit AddressError Document Unit :=
  let missing : AddressError := .missing (routeAddress source)
  onRoot <| inField pathsKey (throw missing) fun paths =>
    match Entries.get? paths source, Entries.position? paths source with
    | some item, some index =>
      let others := Entries.erase (Entries.erase paths source) target
      .ok () (Entries.insertAt others index target item)
    | _, _ => .error missing paths

/-- Edit the entries of a mapping under a key, which is created if it is missing. The address is for
the report that there is something else. -/
def inOwnField (key address : String) (edit : Edit Failure (Entries Node) α) :
    Edit Failure (Entries Node) α := fun entries =>
  match (Entries.get? entries key).getD (.mapping []) with
  | .mapping inner =>
    Edit.onPart inner (fun changed => Entries.insert entries key (.mapping changed)) edit
  | other => .error (.address (.unexpectedShape address .mapping other.shape)) entries

/-- Store a component, creating its category if it is missing; the answer is the component that had
that name. -/
def setComponent (kind : ComponentKind) (name : String) (component : Node) :
    Edit Failure Document (Option Node) :=
  onRoot fun
    | .mapping entries =>
      Edit.onPart entries Node.mapping <|
        inOwnField componentsKey componentsKey <|
          inOwnField kind.key (componentsKey ++ "." ++ kind.key) <| Edit.ofPair fun components =>
            (Entries.get? components name, Entries.insert components name component)
    | other => .error (.document .rootNotMapping) other

/-- Edit the components of a category, or answer without an edit if it is no mapping. -/
def onComponents (kind : ComponentKind) (absent : α) (edit : Entries Node → α × Entries Node) :
    Edit ε Document α :=
  onRoot <| inField componentsKey (pure absent) fun categories =>
    match Entries.get? categories kind.key with
    | some (.mapping components) =>
      let (answer, changed) := edit components
      .ok answer (Entries.insert categories kind.key (.mapping changed))
    | _ => .ok absent categories

/-- Put a component in the place of one, if there is one. -/
def replaceComponent (kind : ComponentKind) (name : String) (component : Node) :
    Edit ε Document Bool :=
  onComponents kind false fun components =>
    if Entries.contains components name then (true, Entries.insert components name component)
    else (false, components)

def deleteComponent (kind : ComponentKind) (name : String) : Edit ε Document (Option Node) :=
  onComponents kind none fun components =>
    (Entries.get? components name, Entries.erase components name)

/-- Put an empty mapping in the place of a category, if the document has components at all. -/
def resetComponents (kind : ComponentKind) : Edit ε Document Bool :=
  onRoot <| inField componentsKey (pure false) fun categories =>
    .ok true (Entries.insert categories kind.key (.mapping []))

/-- Make the subtree at an address a schema with a name, and leave a reference to it in its place. A
schema that had that name is lost. Where there is a reference to the name already, nothing
changes. -/
def extractSchema (name address : String) : Edit Failure Document Reference := fun doc =>
  let reference : Reference := ⟨.schemas, name⟩
  match doc.root.lookup address with
  | .error fault => .error (.address fault) doc
  | .ok subtree =>
    if Reference.ofNode? subtree = some reference then .ok reference doc
    else
      match doc.setComponent .schemas name subtree with
      | .error fault changed => .error fault changed
      | .ok _ changed =>
        (do onAddresses (Node.set address reference.toNode); return reference) changed

end ApiTidy.Document
