import ApiTidy.ComponentKind
import ApiTidy.Node.Basic
import ApiTidy.Text.Replace
import ApiTidy.Text.Split

/-!
References to named components, written as pointers `#/components/<kind>/<name>`. In a name the
characters `~` and `/` are written `~0` and `~1`.
-/
namespace ApiTidy

/-- A named component of the document itself. -/
structure Reference where
  kind : ComponentKind
  name : String
  deriving DecidableEq, Repr

namespace Reference

def pointerStart : List Char := "#/components/".toList

/-- A name with `~0` for `~` and then `~1` for `/`. -/
def escape (name : List Char) : List Char :=
  Text.replace ['/'] ['~', '1'] (Text.replace ['~'] ['~', '0'] name)

/-- The name of an escaped text. It is `/` that is put back first: in `~01` only the `~` is escaped. -/
def unescape (text : List Char) : List Char :=
  Text.replace ['~', '0'] ['~'] (Text.replace ['~', '1'] ['/'] text)

/-- The component that a pointer leads to or into. -/
def parse? (pointer : String) : Option Reference := do
  let rest ← pointerStart.isPrefixOf? pointer.toList
  let (category, tail) ← Text.cutAt '/' rest
  let kind ← ComponentKind.ofKey? (String.ofList category)
  match Text.before '/' tail with
  | [] => none
  | name => some ⟨kind, String.ofList (unescape name)⟩

def pointer (reference : Reference) : String :=
  String.ofList (pointerStart ++ reference.kind.key.toList ++ '/' :: escape reference.name.toList)

/-- The component that a node refers to, if it is a reference. -/
def ofNode? (node : Node) : Option Reference := node.refPointer?.bind parse?

/-- The mapping whose only entry is the pointer. -/
def toNode (reference : Reference) : Node :=
  .mapping [(Node.refKey, .ofString reference.pointer)]

def text (reference : Reference) : String := reference.kind.key ++ "." ++ reference.name

/-- References are ordered by category, then by name in code point order. -/
def before (a b : Reference) : Bool :=
  a.kind.index < b.kind.index || (a.kind = b.kind && a.name < b.name)

/-- Put a reference into an ordered list, unless it is there already. -/
def insertOrdered (reference : Reference) : List Reference → List Reference
  | [] => [reference]
  | other :: rest =>
    if reference = other then other :: rest
    else if reference.before other then reference :: other :: rest
    else other :: insertOrdered reference rest

/-- The references of a list in order, each once. -/
def ordered (references : List Reference) : List Reference := references.foldr insertOrdered []

end Reference

mutual

/-- The references of all mappings of a tree, parents before children. -/
def Node.references : Node → List Reference
  | .scalar _ => []
  | .sequence items => Node.referencesItems items
  | .mapping entries =>
    (Reference.ofNode? (.mapping entries)).toList ++ Node.referencesEntries entries

def Node.referencesItems : List Node → List Reference
  | [] => []
  | item :: rest => item.references ++ Node.referencesItems rest

def Node.referencesEntries : List (String × Node) → List Reference
  | [] => []
  | (_, value) :: rest => value.references ++ Node.referencesEntries rest

end
end ApiTidy
