import ApiTidy.Yaml.Value

/-!
Reading the tree of a YAML document. Keys are text however they are spelled; a repeated key keeps
its first place and its last value. A text without a document is null.
-/
namespace ApiTidy.Yaml

/-- No node has a local tag that can be read. -/
def checkTag (tag : Option Tag) : Except Fault Unit :=
  match tag.bind Tag.localName? with
  | some name => .error (.localTag name)
  | none => .ok ()

/-- The scalar of a text without a tag: by its spelling if it is plain, else the text. -/
def untaggedScalar (style : ScalarStyle) (text : String) : Except Fault Scalar :=
  if style = .plain then (Meaning.ofPlain text).toScalar text else .ok (.string text)

/-- The scalar of a text with a tag that is not local: the tags of null, booleans and numbers demand
such a scalar, and any other tag leaves the text as it is. -/
def taggedScalar (tag : Tag) (text : String) : Except Fault Scalar :=
  if tag = .standard "bool" then
    match boolWord? text with
    | some value => .ok (.bool value)
    | none => .error (.notOfTag "bool")
  else if tag = .standard "int" then
    match integer? text.toList with
    | some value => (Meaning.integer value).toScalar text
    | none => .error (.notOfTag "int")
  else if tag = .standard "float" then
    match float? text.toList with
    | some meaning => meaning.toScalar text
    | none => .error (.notOfTag "float")
  else if tag = .standard "null" then
    if isNullWord text then .ok .null else .error (.notOfTag "null")
  else .ok (.string text)

namespace Value

/-- The scalar of a scalar node. A local tag that cannot be read says nothing about it. -/
def scalarOf (tag : Option Tag) (style : ScalarStyle) (text : String) : Except Fault Scalar := do
  checkTag tag
  match tag.filter (!·.isLocal) with
  | some tag => taggedScalar tag text
  | none => untaggedScalar style text

def spelling? : Value → Option String
  | scalar _ _ text => some text
  | _ => none

def spelledKey (key : Value) : Except Fault String :=
  match key.spelling? with
  | some text => .ok text
  | none => .error .collectionKey

def textKey : Value → Except Fault String
  | scalar tag style text => do
    match ← scalarOf tag style text with
    | .string text => return text
    | _ => .error (.notOfTag "str")
  | _ => .error .collectionKey

mutual

/-- The tree of a value, whose keys are read by `keyText`. -/
def toNode (keyText : Value → Except Fault String) : Value → Except Fault Node
  | scalar tag style text => (scalarOf tag style text).map .scalar
  | sequence tag items => do
    checkTag tag
    return .sequence (← toItems keyText items)
  | mapping tag entries => do
    checkTag tag
    return .mapping (Entries.ofPairs (← toPairs keyText entries))

def toItems (keyText : Value → Except Fault String) : List Value → Except Fault (List Node)
  | [] => .ok []
  | item :: rest => do return (← toNode keyText item) :: (← toItems keyText rest)

def toPairs (keyText : Value → Except Fault String) :
    List (Value × Value) → Except Fault (List (String × Node))
  | [] => .ok []
  | (key, value) :: rest => do
    return (← keyText key, ← toNode keyText value) :: (← toPairs keyText rest)

end

end Value

def parse (text : String) : Except Fault Node := do
  match ← Value.parse? text with
  | none => return .null
  | some value => value.toNode Value.spelledKey

end ApiTidy.Yaml
