import ApiTidy.Config.Basic
import ApiTidy.Bodies

/-! Giving responses the fields that they lack. -/
namespace ApiTidy.Responses

def fillFields : List FieldDefault → Change (Entries Node)
  | [], entries => (entries, 0)
  | default :: rest, entries =>
    if Entries.contains entries default.field then fillFields rest entries
    else
      let (filled, count) := fillFields rest (Entries.insert entries default.field default.value)
      (filled, count + 1)

/-- Complete a response, unless it is a reference, which has no fields of its own. -/
def fillResponse (defaults : List FieldDefault) : Change Node :=
  Change.inMapping fun response =>
    if Entries.contains response Node.refKey then (response, 0) else fillFields defaults response

def backfill (defaults : List FieldDefault) : Change Node :=
  Bodies.onAll fun
    | .request => Change.keep
    | .response => fillResponse defaults

end ApiTidy.Responses
