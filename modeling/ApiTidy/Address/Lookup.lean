import ApiTidy.Address.Basic

/-! Looking up the node at an address. -/
namespace ApiTidy

/-- The index that a segment denotes: decimal digits that fit a word of sixty-four bits, after at
most one plus sign. -/
def Address.index? (segment : String) : Option Nat :=
  let digits :=
    match segment.toList with
    | '+' :: rest => rest
    | all => all
  (Text.numeral? 10 digits).filter (· < Text.wordLimit)

/-- The place in a sequence of the given length that a segment of `address` denotes. -/
def Address.place (address segment : String) (length : Nat) : Except AddressError (Fin length) :=
  match Address.index? segment with
  | none => .error (.notNumeric address segment)
  | some index =>
    if h : index < length then .ok ⟨index, h⟩ else .error (.outOfRange address index length)

namespace Node

/-- The node one segment below, for a lookup of `address`. -/
def step (address segment : String) : Node → Except AddressError Node
  | .mapping entries =>
    match Entries.get? entries segment with
    | some child => .ok child
    | none => .error (.missing address)
  | .sequence items =>
    match Address.place address segment items.length with
    | .ok index => .ok (items.get index)
    | .error fault => .error fault
  | .scalar _ => .error (.notContainer address segment)

/-- The node at the end of the segments, for a lookup of `address`. -/
def follow (address : String) : List String → Node → Except AddressError Node
  | [], node => .ok node
  | segment :: rest, node =>
    match node.step address segment with
    | .ok child => follow address rest child
    | .error fault => .error fault

/-- The node at an address, or why there is none. -/
def lookup (node : Node) (address : String) : Except AddressError Node :=
  follow address (Address.parse address).segments node

def lookup? (node : Node) (address : String) : Option Node := (node.lookup address).toOption

def lookupMapping (node : Node) (address : String) : Except AddressError (Entries Node) := do
  match ← node.lookup address with
  | .mapping entries => .ok entries
  | other => .error (.unexpectedShape address .mapping other.shape)

def lookupSequence (node : Node) (address : String) : Except AddressError (List Node) := do
  match ← node.lookup address with
  | .sequence items => .ok items
  | other => .error (.unexpectedShape address .sequence other.shape)

def lookupString (node : Node) (address : String) : Except AddressError String := do
  match ← node.lookup address with
  | .scalar (.string text) => .ok text
  | other => .error (.unexpectedShape address .string other.shape)

end Node
end ApiTidy
