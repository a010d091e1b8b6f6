import ApiTidy.Document.Edit

/-!
Which components a document uses. Everything outside the given categories is a root. A component of
these categories is reachable if a root refers to it or a reachable component does.
-/
namespace ApiTidy.Document

/-- Whether a category under `components` is one of the given ones. -/
def isGiven (kinds : List ComponentKind) (category : String) : Bool :=
  (ComponentKind.ofKey? category).any (kinds.contains ·)

/-- The references of the roots: of all top-level values but `components`, and of all categories
that are not given. -/
def rootReferences (doc : Document) (kinds : List ComponentKind) : List Reference :=
  let outside := (doc.root.entries?.getD []).filter (·.1 ≠ componentsKey)
  let categories :=
    ((doc.region? componentsKey).getD []).filter fun (category, _) => !isGiven kinds category
  outside.flatMap (·.2.references) ++ categories.flatMap (·.2.references)

/-- The references of the component that a reference names. -/
def targetReferences (doc : Document) (reference : Reference) : List Reference :=
  ((doc.target? reference).map Node.references).getD []

/-- All components of the given categories, by category and in document order. -/
def componentsOf (doc : Document) (kinds : List ComponentKind) : List Reference :=
  (ComponentKind.normalize kinds).flatMap fun kind =>
    (doc.componentNames kind).map fun name => ⟨kind, name⟩

/-- Follow references from a list of them, with those already followed. Only references to the given
categories are followed, each once; `fuel` bounds how many are looked at. -/
def follow (doc : Document) (kinds : List ComponentKind) :
    Nat → List Reference → List Reference → List Reference
  | fuel + 1, reference :: rest, reached =>
    if !kinds.contains reference.kind || reached.contains reference then
      follow doc kinds fuel rest reached
    else follow doc kinds fuel (doc.targetReferences reference ++ rest) (reference :: reached)
  | _, _, reached => reached

/-- How many references are looked at, at most: those of the roots and of each component. -/
def referenceCount (doc : Document) (kinds : List ComponentKind) : Nat :=
  (doc.rootReferences kinds).length + ((doc.componentsOf kinds).flatMap doc.targetReferences).length

/-- The reachable references to the given categories, also those that name no component. -/
def reachable (doc : Document) (kinds : List ComponentKind) : List Reference :=
  follow doc kinds (doc.referenceCount kinds) (doc.rootReferences kinds) []

def unreachable (doc : Document) (kinds : List ComponentKind) : List Reference :=
  let reached := doc.reachable kinds
  (doc.componentsOf kinds).filter fun reference => !reached.contains reference

end ApiTidy.Document
