import ApiTidy.ComponentKind
import ApiTidy.Failure
import ApiTidy.Yaml.Reader

/-!
Reading the fields of a configuration. Text is any scalar as it is spelled; a list or a group of
fields may be left empty; a field occurs at most once.
-/
namespace ApiTidy.Config
open Yaml (Value)

/-- A way to read a value. -/
abbrev Decoder (α : Type) := Value → Except DecodeFault α

namespace Decoder

/-- The fault that something else was wanted. -/
def unexpected {α : Type} (wanted : String) : Except DecodeFault α :=
  .error (.field (.unexpected wanted))

/-- Whether nothing is written where a value may stand. -/
def isEmpty : Value → Bool
  | .scalar _ .plain "" => true
  | _ => false

def text : Decoder String
  | .scalar _ _ text => .ok text
  | _ => unexpected "text"

def optionalText : Decoder (Option String)
  | .scalar none .plain text =>
    .ok (if text.isEmpty || Yaml.isNullWord text then none else some text)
  | .scalar (some tag) .plain text =>
    if tag ≠ .standard "null" then .ok (some text)
    else if Yaml.isNullWord text then .ok none
    else unexpected "null"
  | .scalar _ _ text => .ok (some text)
  | _ => unexpected "text"

/-- A list, in which each item is read by `item`; what is left empty is the empty list. -/
def list {α : Type} (item : Decoder α) : Decoder (List α)
  | .sequence _ items => items.mapM item
  | value => if isEmpty value then .ok [] else unexpected "a list"

/-- A natural number of at most 32 bits, in plain style or as a literal block with the tag of
integers. -/
def number : Decoder Nat
  | .scalar tag style text =>
    let digits :=
      match text.toList with
      | '+' :: rest => rest
      | all => all
    match Yaml.magnitude? digits with
    | some n =>
      if (style = .plain || (style = .literal && tag = some (.standard "int")))
          && n < 0x100000000 then .ok n
      else unexpected "a version number"
    | none => unexpected "a version number"
  | _ => unexpected "a version number"

def node : Decoder Node := fun value =>
  match value.toNode Value.spelledKey with
  | .ok node => .ok node
  | .error fault => .error (.yaml fault)

/-- The name that a scalar chooses: its text, or its local tag if it is null otherwise. -/
def choice? (tag : Option Yaml.Tag) (style : Yaml.ScalarStyle) (text : String) : Option String :=
  match tag.bind Yaml.Tag.localName? with
  | none => some text
  | some name =>
    if style = .plain && (text.isEmpty || Yaml.isNullWord text) then some name else none

def componentKind : Decoder ComponentKind
  | .scalar tag style text =>
    match (choice? tag style text).bind ComponentKind.ofKey? with
    | some kind => .ok kind
    | none => unexpected "a component kind"
  | _ => unexpected "a component kind"

/-- The entries of a mapping with the keys as they are spelled. -/
def entries : Decoder (List (String × Value))
  | .mapping _ pairs => pairs.mapM fun (key, value) =>
    match key.spelledKey with
    | .ok text => .ok (text, value)
    | .error fault => .error (.yaml fault)
  | value => if isEmpty value then .ok [] else unexpected "a mapping"

/-- The first key that occurs again later. -/
def repeated? : List String → Option String
  | [] => none
  | key :: rest => if rest.contains key then some key else repeated? rest

/-- The entries of a mapping whose keys are all among the given ones, each at most once. -/
def group (allowed : List String) : Decoder (List (String × Value)) := fun value => do
  let found ← entries value
  match found.find? fun (key, _) => !allowed.contains key with
  | some (key, _) => .error (.field (.unknown key))
  | none =>
    match repeated? (found.map (·.1)) with
    | some key => .error (.field (.repeated key))
    | none => return found

/-- The value of a field that must be there. -/
def required {α : Type} (fields : List (String × Value)) (key : String) (decode : Decoder α) :
    Except DecodeFault α :=
  match fields.lookup key with
  | some value => decode value
  | none => .error (.field (.missing key))

def optional {α : Type} (fields : List (String × Value)) (key : String) (decode : Decoder α)
    (standard : α) : Except DecodeFault α :=
  match fields.lookup key with
  | some value => decode value
  | none => .ok standard

end Decoder
end ApiTidy.Config
