import ApiTidy.Address.Lookup
import ApiTidy.Edit

/-!
Edits of a tree at an address: `set` writes a node, `delete` takes one out and `move` takes one to
another address.
-/
namespace ApiTidy.Node

/-- Edit the node at the end of the segments, which must be there. -/
def editAlong {α : Type} (address : String) (edit : Edit AddressError Node α) :
    List String → Edit AddressError Node α
  | [], node => edit node
  | segment :: rest, .mapping entries =>
    match Entries.get? entries segment with
    | none => .error (.missing address) (.mapping entries)
    | some child =>
      Edit.onPart child (fun changed => .mapping (Entries.insert entries segment changed))
        (editAlong address edit rest)
  | segment :: rest, .sequence items =>
    match Address.place address segment items.length with
    | .error fault => .error fault (.sequence items)
    | .ok index =>
      Edit.onPart (items.get index) (fun changed => .sequence (items.set index changed))
        (editAlong address edit rest)
  | segment :: _, .scalar value => .error (.notContainer address segment) (.scalar value)

def editAt {α : Type} (address : String) (edit : Edit AddressError Node α) :
    Edit AddressError Node α :=
  editAlong address edit (Address.parse address).segments

def editMappingAt {α : Type} (address : String) (edit : Entries Node → α × Entries Node) :
    Edit AddressError Node α :=
  editAt address fun
    | .mapping entries =>
      let (answer, changed) := edit entries
      .ok answer (.mapping changed)
    | other => .error (.unexpectedShape address .mapping other.shape) other

def editSequenceAt {α : Type} (address : String) (edit : List Node → α × List Node) :
    Edit AddressError Node α :=
  editAt address fun
    | .sequence items =>
      let (answer, changed) := edit items
      .ok answer (.sequence changed)
    | other => .error (.unexpectedShape address .sequence other.shape) other

/-- Write a node at the end of the segments. A key that is missing on the way gets an empty mapping,
which stays there whatever happens further down; a sequence must have the item already. -/
def place (address : String) (value : Node) : List String → Edit AddressError Node Unit
  | [], _ => .ok () value
  | [last], .mapping entries => .ok () (.mapping (Entries.insert entries last value))
  | [last], .sequence items =>
    match Address.place address last items.length with
    | .error fault => .error fault (.sequence items)
    | .ok index => .ok () (.sequence (items.set index value))
  | segment :: next :: rest, .mapping entries =>
    Edit.onPart ((Entries.get? entries segment).getD (.mapping []))
      (fun changed => .mapping (Entries.insert entries segment changed))
      (place address value (next :: rest))
  | segment :: next :: rest, .sequence items =>
    match Address.place address segment items.length with
    | .error fault => .error fault (.sequence items)
    | .ok index =>
      Edit.onPart (items.get index) (fun changed => .sequence (items.set index changed))
        (place address value (next :: rest))
  | segment :: _, .scalar old => .error (.notContainer address segment) (.scalar old)

/-- Write a node at an address, creating mappings for missing keys on the way. -/
def set (address : String) (value : Node) : Edit AddressError Node Unit :=
  place address value (Address.parse address).segments

/-- Take the entry or item that a last segment denotes out of its container; the answer is the node
and its position. -/
def takeOut (address last : String) : Edit AddressError Node (Node × Nat)
  | .mapping entries =>
    match Entries.get? entries last, Entries.position? entries last with
    | some node, some index => .ok (node, index) (.mapping (Entries.erase entries last))
    | _, _ => .error (.missing address) (.mapping entries)
  | .sequence items =>
    match Address.place address last items.length with
    | .error fault => .error fault (.sequence items)
    | .ok index => .ok (items.get index, index.val) (.sequence (items.eraseIdx index.val))
  | .scalar value => .error (.notContainer address last) (.scalar value)

/-- A container that is missing on the way is reported as the node that was asked for. -/
def asMissing (address : String) : AddressError → AddressError
  | .missing _ => .missing address
  | other => other

/-- Take the node at an address out of the tree, with its position in its container. -/
def detach (address : String) : Edit AddressError Node (Node × Nat) :=
  match (Address.parse address).splitLast? with
  | none => throw .root
  | some (parent, last) =>
    Edit.mapError (asMissing address)
      (editAlong parent.text (takeOut address last) parent.segments)

/-- Put a node into its container at a position. -/
def putBack (last : String) (index : Nat) (node : Node) : Edit AddressError Node Unit
  | .mapping entries => .ok () (.mapping (Entries.insertAt entries index last node))
  | .sequence items => .ok () (.sequence (items.insertIdx (min index items.length) node))
  | .scalar value => .ok () (.scalar value)

/-- Put a node back where `detach` found it. -/
def reattach (address : String) (index : Nat) (node : Node) (tree : Node) : Node :=
  match (Address.parse address).splitLast? with
  | none => tree
  | some (parent, last) =>
    match editAlong parent.text (putBack last index node) parent.segments tree with
    | .ok _ changed => changed
    | .error _ changed => changed

/-- Take the node at an address out; the other entries and items keep their order. -/
def delete (address : String) : Edit AddressError Node Node := fun tree =>
  match detach address tree with
  | .ok (node, _) changed => .ok node changed
  | .error fault changed => .error fault changed

/-- Take the node at one address to another. If it cannot be written there it goes back to where it
was. -/
def move (source target : String) : Edit AddressError Node Unit := fun tree =>
  match detach source tree with
  | .error fault changed => .error fault changed
  | .ok (node, index) without =>
    match set target node without with
    | .ok _ changed => .ok () changed
    | .error fault changed => .error fault (reattach source index node changed)

end ApiTidy.Node
