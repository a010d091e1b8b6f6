import ApiTidy.Document.Edit
import ApiTidy.Json.Printer
import ApiTidy.Json.Reader
import ApiTidy.Yaml.Printer
import ApiTidy.Yaml.Reader

/-! Documents as texts. -/
namespace ApiTidy

/-- The tree of a text. -/
def Format.decode (format : Format) (content : String) : Except DecodeFault Node :=
  match format with
  | .json =>
    match Json.parse content with
    | .ok node => .ok node
    | .error fault => .error (.json fault)
  | .yaml =>
    match Yaml.parse content with
    | .ok node => .ok node
    | .error fault => .error (.yaml fault)

def Format.encode (format : Format) (node : Node) : String :=
  match format with
  | .json => Json.render node
  | .yaml => Yaml.render node

namespace Document

/-- The document of a text that was read from `source`, if it was read from a file. -/
def parseFrom (source : Option String) (content : String) (format : Format) :
    Except Failure Document :=
  match format.decode content with
  | .error fault => .error (.parse (.malformed format fault source))
  | .ok root => ofNode root

def parse (content : String) (format : Format) : Except Failure Document :=
  parseFrom none content format

def render (doc : Document) (format : Format) : String := format.encode doc.root

end Document
end ApiTidy
