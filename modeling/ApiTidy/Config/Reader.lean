import ApiTidy.Config.Basic
import ApiTidy.Config.Decoder
import ApiTidy.Text.Blank

/-!
Reading a configuration from YAML. Every field may be left out. A fix is read in two steps, first
all its entries and then those that its operation needs; therefore its fields must be text in
earnest, and entries that the operation does not need are ignored.
-/
namespace ApiTidy.Config
open Yaml (Value)
open Decoder

def readMatcher : Decoder ParameterMatcher := fun value => do
  let fields ← group ["name_suffix", "ref_suffix", "location"] value
  return {
    nameSuffix := ← optional fields "name_suffix" optionalText none
    refSuffix := ← optional fields "ref_suffix" optionalText none
    location := ← optional fields "location" optionalText none }

def readFieldDefault : Decoder FieldDefault := fun value => do
  let fields ← group ["field", "value"] value
  return {
    field := ← required fields "field" text
    value := ← optional fields "value" node (.ofString "") }

def readRelocation : Decoder Relocation := fun value => do
  let fields ← group ["prefix", "routes", "parameter"] value
  return {
    base := ← required fields "prefix" text
    routes := ← required fields "routes" (list text)
    parameter := ← required fields "parameter" node }

def readExtraction : Decoder Extraction := fun value => do
  let fields ← group ["name", "path"] value
  return {
    name := ← required fields "name" text
    path := ← required fields "path" text }

mutual

/-- Whether a value can be kept without knowing what it is for: it has no local tags and its scalars
have a meaning. -/
def checkContent : Value → Except Yaml.Fault Unit
  | .scalar tag style text => (Value.scalarOf tag style text).map fun _ => ()
  | .sequence tag items => do
    Yaml.checkTag tag
    checkItems items
  | .mapping tag entries => do
    Yaml.checkTag tag
    checkEntries entries

def checkItems : List Value → Except Yaml.Fault Unit
  | [] => .ok ()
  | item :: rest => do
    checkContent item
    checkItems rest

def checkEntries : List (Value × Value) → Except Yaml.Fault Unit
  | [] => .ok ()
  | (key, value) :: rest => do
    checkContent key
    checkContent value
    checkEntries rest

end

/-- A value whose meaning is text. -/
def realText : Decoder String := fun value =>
  match value.textKey with
  | .ok text => .ok text
  | .error fault => .error (.yaml fault)

def realNode : Decoder Node := fun value =>
  match value.toNode Value.textKey with
  | .ok node => .ok node
  | .error fault => .error (.yaml fault)

inductive Operation where
  | delete | set | move

def Operation.ofNode? : Node → Option Operation
  | .scalar (.string "delete") | .scalar (.number (.integer 0)) => some delete
  | .scalar (.string "set") | .scalar (.number (.integer 1)) => some set
  | .scalar (.string "move") | .scalar (.number (.integer 2)) => some move
  | _ => none

def hasMinus (value : Value) : Bool :=
  value.spelling?.any fun text => text.toList.head? = some '-'

/-- An operation is named by its word or by its number, which has no sign of a negative one. -/
def readOperation : Decoder Operation := fun value => do
  match Operation.ofNode? (← realNode value), hasMinus value with
  | some operation, false => return operation
  | _, _ => unexpected "delete, set or move"

def single {α : Type} (fields : List (String × Value)) (key : String) (decode : Decoder α) :
    Except DecodeFault α :=
  match fields.filter (·.1 = key) with
  | [] => .error (.field (.missing key))
  | [(_, value)] => decode value
  | _ => .error (.field (.repeated key))

def readCorrection (fields : List (String × Value)) : Except DecodeFault Correction := do
  match ← single fields "op" readOperation with
  | .delete => return .delete (← single fields "path" realText)
  | .set => return .set (← single fields "path" realText) (← single fields "value" realNode)
  | .move => return .move (← single fields "from" realText) (← single fields "to" realText)

def readFix : Decoder Fix := fun value => do
  let all ← entries value
  let others := all.filter (·.1 ≠ "reason")
  match checkEntries (others.map fun (key, value) => (.scalar none .doubleQuoted key, value)) with
  | .error fault => .error (.yaml fault)
  | .ok () =>
    let reasons := all.filter (·.1 = "reason")
    let reason ←
      if reasons.isEmpty then .ok none else single reasons "reason" optionalText
    return ⟨reason, ← readCorrection others⟩

def fieldNames : List String :=
  ["version", "strip_parameters", "response_defaults", "relocations", "fixes", "extract",
    "omit_empty_marker", "prune", "skip"]

def readFields : Decoder Config := fun value => do
  let fields ← group fieldNames value
  return {
    version := ← optional fields "version" number standard.version
    stripParameters := ← optional fields "strip_parameters" (list readMatcher) []
    responseDefaults :=
      ← optional fields "response_defaults" (list readFieldDefault) standard.responseDefaults
    relocations := ← optional fields "relocations" (list readRelocation) []
    fixes := ← optional fields "fixes" (list readFix) []
    extract := ← optional fields "extract" (list readExtraction) []
    omitEmptyMarker := ← optional fields "omit_empty_marker" text standard.omitEmptyMarker
    prune := ← optional fields "prune" (list componentKind) standard.prune
    skip := ← optional fields "skip" (list text) [] }

/-- The configuration of a YAML text, not validated. -/
def decode (content : String) : Except DecodeFault Config :=
  if (Text.trim content.toList).isEmpty then .ok standard
  else
    match Value.parse? content with
    | .error fault => .error (.yaml fault)
    | .ok none => .ok standard
    | .ok (some value) => readFields value

def parse (content : String) : Except ConfigFault Config :=
  match decode content with
  | .error fault => .error (.malformed fault)
  | .ok config => config.validate

end ApiTidy.Config
