import ApiTidy.ComponentKind
import ApiTidy.Failure
import ApiTidy.PassName

/-!
The configuration of a run: what is specific to one document. `Config.validate` checks what the form
of a configuration cannot express.
-/
namespace ApiTidy

/-- Which parameters to strip: inline ones by the end of their name and their location, references
by the end of their pointer. -/
structure ParameterMatcher where
  nameSuffix : Option String
  refSuffix : Option String
  location : Option String
  deriving DecidableEq, Repr

namespace ParameterMatcher

def accepts (matcher : ParameterMatcher) (parameter : Node) : Bool :=
  match parameter.refPointer? with
  | some pointer => matcher.refSuffix.any fun suffix => suffix.toList.isSuffixOf pointer.toList
  | none =>
    let text (key : String) := (parameter.field? key).bind Node.string?
    (matcher.nameSuffix.any fun suffix =>
        (text "name").any fun name => suffix.toList.isSuffixOf name.toList)
      && matcher.location.all fun location => text "in" = some location

end ParameterMatcher

/-- A field and the value it gets where it is missing. -/
structure FieldDefault where
  field : String
  value : Node

/-- Routes to move below a common base, whose operations get a parameter. -/
structure Relocation where
  base : String
  routes : List String
  parameter : Node

def Relocation.target (relocation : Relocation) (route : String) : String :=
  String.ofList (Text.dropEnd (· = '/') relocation.base.toList ++ route.toList)

/-- One correction of a document. -/
inductive Correction where
  | delete (path : String)
  | set (path : String) (value : Node)
  | move (source target : String)

def Correction.target : Correction → String
  | .delete path | .set path _ => path
  | .move source _ => source

/-- A correction and why it is made. -/
structure Fix where
  reason : Option String
  correction : Correction

/-- A subtree that becomes a schema with a name. -/
structure Extraction where
  name : String
  path : String
  deriving DecidableEq, Repr

/-- What a run does to a document. -/
structure Config where
  version : Nat
  stripParameters : List ParameterMatcher
  responseDefaults : List FieldDefault
  relocations : List Relocation
  fixes : List Fix
  extract : List Extraction
  omitEmptyMarker : String
  prune : List ComponentKind
  /-- The names of passes to leave out. -/
  skip : List String

namespace Config

def standard : Config where
  version := supportedVersion
  stripParameters := []
  responseDefaults := [⟨"description", .ofString ""⟩]
  relocations := []
  fixes := []
  extract := []
  omitEmptyMarker := "x-omitempty"
  prune := [.schemas, .parameters]
  skip := []

def isAbsolute (route : String) : Bool := route.toList.head? = some '/'

/-- Every matcher must be able to match something. -/
def emptyMatcher? (config : Config) : Option ConfigFault :=
  (config.stripParameters.findIdx? fun m => m.nameSuffix.isNone && m.refSuffix.isNone).map
    .emptyMatcher

def relativeBase? (relocation : Relocation) : Option ConfigFault :=
  if isAbsolute relocation.base then none else some (.relativeBase relocation.base)

def relativeRoute? (relocation : Relocation) : Option ConfigFault :=
  (relocation.routes.find? fun route => !isAbsolute route).map .relativeRoute

def fault? (config : Config) : Option ConfigFault :=
  if config.version ≠ supportedVersion then some (.unsupportedVersion config.version)
  else
    ((config.skip.find? fun name => !PassName.isKnown name).map .unknownSkip)
      <|> config.emptyMatcher?
      <|> (config.relocations.findSome? fun relocation =>
        relativeBase? relocation <|> relativeRoute? relocation)
      <|> ((config.extract.find? (·.name = "")).map fun extraction =>
        .unnamedExtraction extraction.path)

def validate (config : Config) : Except ConfigFault Config :=
  match config.fault? with
  | some fault => .error fault
  | none => .ok config

end Config
end ApiTidy
