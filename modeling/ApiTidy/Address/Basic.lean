import ApiTidy.Node.Basic
import ApiTidy.Text.Split

/-!
Addresses of points in a tree: segments separated by dots. Against a mapping a segment is a key,
against a sequence the index of an item. A key with a dot in it has no address.
-/
namespace ApiTidy

/-- The segments from the root down; none of them for the root itself. -/
structure Address where
  segments : List String
  deriving DecidableEq, Repr

/-- Why an address leads nowhere. Each cause but the last names the address. -/
inductive AddressError where
  | missing (address : String)
  | notNumeric (address segment : String)
  | outOfRange (address : String) (index length : Nat)
  | notContainer (address segment : String)
  | unexpectedShape (address : String) (expected found : Shape)
  | root
  deriving DecidableEq, Repr

namespace AddressError

def address? : AddressError → Option String
  | missing address | notNumeric address _ | outOfRange address _ _ | notContainer address _
  | unexpectedShape address _ _ => some address
  | root => none

def isMissing : AddressError → Bool
  | missing _ => true
  | _ => false

def message : AddressError → String
  | missing address => "no value at `" ++ address ++ "`"
  | notNumeric address segment =>
    "segment `" ++ segment ++ "` of `" ++ address ++ "` is not a sequence index"
  | outOfRange address index length =>
    "index " ++ toString index ++ " of `" ++ address ++ "` is out of range (length "
      ++ toString length ++ ")"
  | notContainer address segment =>
    "`" ++ address ++ "` descends into a scalar at `" ++ segment ++ "`"
  | unexpectedShape address expected found =>
    "`" ++ address ++ "` holds a " ++ found.name ++ ", expected a " ++ expected.name
  | root => "the document root cannot be deleted or moved"

end AddressError

namespace Address

def root : Address := ⟨[]⟩

def isRoot (address : Address) : Bool := address.segments.isEmpty

/-- The segments between the dots; the empty text is the root. -/
def parse (text : String) : Address :=
  match text.toList with
  | [] => root
  | chars => ⟨(Text.pieces '.' chars).map String.ofList⟩

/-- The segments with dots between them. -/
def text (address : Address) : String :=
  String.ofList (Text.join '.' (address.segments.map String.toList))

def child (address : Address) (segment : String) : Address := ⟨address.segments ++ [segment]⟩

/-- The address one segment further up, and that segment. -/
def splitLast? (address : Address) : Option (Address × String) :=
  match address.segments.getLast? with
  | none => none
  | some last => some (⟨address.segments.dropLast⟩, last)

end Address
end ApiTidy
