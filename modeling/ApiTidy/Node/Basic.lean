import ApiTidy.Entries
import ApiTidy.Number

/-! The document tree: mappings with ordered keys, sequences and scalars. -/
namespace ApiTidy

/-- A leaf of the tree. -/
inductive Scalar where
  | null
  | bool (value : Bool)
  | number (value : Number)
  | string (value : String)
  deriving DecidableEq

/-- A point of the tree with everything below it. -/
inductive Node where
  | scalar (value : Scalar)
  | sequence (items : List Node)
  | mapping (entries : List (String × Node))

/-- What a node is, as error messages name it. -/
inductive Shape where
  | mapping | sequence | scalar | string
  deriving DecidableEq, Repr

def Shape.name : Shape → String
  | .mapping => "mapping"
  | .sequence => "sequence"
  | .scalar => "scalar"
  | .string => "string"

namespace Node

instance : Inhabited Node := ⟨.scalar .null⟩

def null : Node := .scalar .null
def ofString (text : String) : Node := .scalar (.string text)
def ofBool (value : Bool) : Node := .scalar (.bool value)

def shape : Node → Shape
  | .mapping _ => .mapping
  | .sequence _ => .sequence
  | .scalar _ => .scalar

def isMapping : Node → Bool
  | .mapping _ => true
  | _ => false

def entries? : Node → Option (Entries Node)
  | .mapping entries => some entries
  | _ => none

def items? : Node → Option (List Node)
  | .sequence items => some items
  | _ => none

def string? : Node → Option String
  | .scalar (.string text) => some text
  | _ => none

def bool? : Node → Option Bool
  | .scalar (.bool value) => some value
  | _ => none

/-- The value under a key of a mapping. -/
def field? (node : Node) (key : String) : Option Node :=
  match node with
  | .mapping entries => Entries.get? entries key
  | _ => none

def refKey : String := "$ref"

/-- The pointer of a mapping whose `$ref` is a string. -/
def refPointer? (node : Node) : Option String :=
  (node.field? refKey).bind string?

end Node

/-- Equality of scalars, with numbers compared by kind and value. -/
def Scalar.same : Scalar → Scalar → Bool
  | .null, .null => true
  | .bool a, .bool b => a = b
  | .number a, .number b => a.same b
  | .string a, .string b => a = b
  | _, _ => false

mutual

/-- Equality of trees: the order of a mapping's keys does not matter, that of a sequence does. -/
def Node.same : Node → Node → Bool
  | .scalar a, .scalar b => a.same b
  | .sequence a, .sequence b => Node.sameItems a b
  | .mapping a, .mapping b => a.length = b.length && Node.sameEntries a b
  | _, _ => false

def Node.sameItems : List Node → List Node → Bool
  | [], [] => true
  | a :: as, b :: bs => Node.same a b && Node.sameItems as bs
  | _, _ => false

/-- Each entry of the first list has an equal value under its key in the second. -/
def Node.sameEntries : List (String × Node) → List (String × Node) → Bool
  | [], _ => true
  | (key, value) :: rest, other =>
    (match Entries.get? other key with
      | some found => Node.same value found
      | none => false) && Node.sameEntries rest other

end

mutual

/-- How many containers are nested at most. -/
def Node.depth : Node → Nat
  | .scalar _ => 0
  | .sequence items => Node.depthItems items + 1
  | .mapping entries => Node.depthEntries entries + 1

def Node.depthItems : List Node → Nat
  | [] => 0
  | item :: rest => max item.depth (Node.depthItems rest)

def Node.depthEntries : List (String × Node) → Nat
  | [] => 0
  | (_, value) :: rest => max value.depth (Node.depthEntries rest)

end

mutual

/-- No mapping of the tree has a key twice. -/
def Node.WellFormed : Node → Prop
  | .scalar _ => True
  | .sequence items => Node.WellFormedItems items
  | .mapping entries => Entries.Distinct entries ∧ Node.WellFormedEntries entries

def Node.WellFormedItems : List Node → Prop
  | [] => True
  | item :: rest => item.WellFormed ∧ Node.WellFormedItems rest

def Node.WellFormedEntries : List (String × Node) → Prop
  | [] => True
  | (_, value) :: rest => value.WellFormed ∧ Node.WellFormedEntries rest

end
end ApiTidy
