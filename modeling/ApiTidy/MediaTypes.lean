import ApiTidy.Node.Merge
import ApiTidy.Bodies
import ApiTidy.Text.Blank

/-! Cutting the parameters off media types, such as `; version=2`. -/
namespace ApiTidy.MediaTypes

def hasTypeParameters (key : String) : Bool := key.toList.contains ';'

def plainType (key : String) : String :=
  String.ofList (Text.trim (Text.before ';' key.toList))

/-- Give an entry its plain key. It keeps its place, or is merged into the entry that has that key
already. -/
def simplifyEntry (content : Entries Node) (key : String) : Entries Node :=
  match Entries.get? content key, Entries.position? content key with
  | some media, some index =>
    let others := Entries.erase content key
    match Entries.get? others (plainType key) with
    | some existing => Entries.insert others (plainType key) (Node.merge existing media)
    | none => Entries.insertAt others index (plainType key) media
  | _, _ => content

/-- Give every entry of a content mapping its plain key, one after another. -/
def simplifyContent : Change (Entries Node) := fun content =>
  let keys := (Entries.keys content).filter hasTypeParameters
  (keys.foldl simplifyEntry content, keys.length)

def simplify : Change Node :=
  Bodies.onAll fun _ => Change.atField "content" (Change.inMapping simplifyContent)

end ApiTidy.MediaTypes
