import ApiTidy.Document.Basic
import ApiTidy.Change

/-! Request bodies and responses, of the operations and among the components. -/
namespace ApiTidy.Bodies

inductive Kind where
  | request | response
  deriving DecidableEq, Repr

def onOperation (change : Kind → Change Node) : Change Node :=
  Change.andThen (Change.atField "requestBody" (change .request))
    (Change.atField "responses" <| Change.inMapping <| Change.onValues fun _ =>
      change .response)

def onOperations (change : Change Node) : Change Node :=
  Change.atField Document.pathsKey <| Change.inMapping <| Change.onValues fun _ =>
    Change.inMapping <| Change.onValues fun key =>
      if (HttpMethod.ofKey? key).isSome then change else Change.keep

def onCategory (kind : ComponentKind) (change : Change Node) : Change Node :=
  Change.atField Document.componentsKey <| Change.atField kind.key <|
    Change.inMapping <| Change.onValues fun _ => change

def onAll (change : Kind → Change Node) : Change Node :=
  Change.andThen (onOperations (onOperation change)) <|
    Change.andThen (onCategory .requestBodies (change .request))
      (onCategory .responses (change .response))

end ApiTidy.Bodies
