import ApiTidy.Text.Blank

/-! The formats of documents, and which one a file is in. -/
namespace ApiTidy

/-- The serialization family of a document. -/
inductive Format where
  | json | yaml
  deriving DecidableEq, Repr

namespace Format

def name : Format → String
  | .json => "JSON"
  | .yaml => "YAML"

def ofExtension? : String → Option Format
  | "json" => some .json
  | "yaml" | "yml" => some .yaml
  | _ => none

/-- The format that a content looks like: JSON documents open with a brace or a bracket. -/
def sniff (content : String) : Format :=
  match Text.trimStart content.toList with
  | '{' :: _ | '[' :: _ => .json
  | _ => .yaml

end Format
end ApiTidy
