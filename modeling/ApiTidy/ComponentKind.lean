/-! The categories of named components and the methods of operations. -/
namespace ApiTidy

/-- A category of named components. -/
inductive ComponentKind where
  | schemas | responses | parameters | examples | requestBodies | headers | securitySchemes | links
  | callbacks | pathItems
  deriving DecidableEq, Repr

namespace ComponentKind

def all : List ComponentKind :=
  [schemas, responses, parameters, examples, requestBodies, headers, securitySchemes, links,
    callbacks, pathItems]

/-- The key of the category under `components`. -/
def key : ComponentKind → String
  | schemas => "schemas"
  | responses => "responses"
  | parameters => "parameters"
  | examples => "examples"
  | requestBodies => "requestBodies"
  | headers => "headers"
  | securitySchemes => "securitySchemes"
  | links => "links"
  | callbacks => "callbacks"
  | pathItems => "pathItems"

def ofKey? (text : String) : Option ComponentKind := all.find? (·.key = text)

def index (kind : ComponentKind) : Nat := all.idxOf kind

/-- The listed categories, each once and in their order. -/
def normalize (kinds : List ComponentKind) : List ComponentKind := all.filter (kinds.contains ·)

end ComponentKind

/-- A method that an operation of a path item is stored under. -/
inductive HttpMethod where
  | get | put | post | delete | options | head | patch | trace
  deriving DecidableEq, Repr

namespace HttpMethod

def all : List HttpMethod := [get, put, post, delete, options, head, patch, trace]

def key : HttpMethod → String
  | get => "get"
  | put => "put"
  | post => "post"
  | delete => "delete"
  | options => "options"
  | head => "head"
  | patch => "patch"
  | trace => "trace"

def ofKey? (text : String) : Option HttpMethod := all.find? (·.key = text)

def index (method : HttpMethod) : Nat := all.idxOf method

end HttpMethod
end ApiTidy
