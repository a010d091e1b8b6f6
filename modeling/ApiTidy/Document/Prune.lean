import ApiTidy.Document.Reachability

/-!
Removing components that nothing uses. The unreachable components are found before any is removed,
and the search is repeated until it finds none.
-/
namespace ApiTidy.Document

def without (doc : Document) (reference : Reference) : Document :=
  match (deleteComponent reference.kind reference.name : Edit Empty Document _) doc with
  | .ok _ changed => changed
  | .error fault _ => fault.elim

/-- What a pruning removed, and how often it searched; the last search found nothing. -/
structure Pruning where
  removed : List Reference
  searches : Nat
  deriving DecidableEq, Repr

/-- Search and remove, at most `fuel` times. -/
def pruneFrom (kinds : List ComponentKind) : Nat → Document → Pruning × Document
  | 0, doc => (⟨[], 0⟩, doc)
  | fuel + 1, doc =>
    let found := doc.unreachable kinds
    if found.isEmpty then (⟨[], 1⟩, doc)
    else
      let (later, pruned) := pruneFrom kinds fuel (found.foldl without doc)
      (⟨found ++ later.removed, later.searches + 1⟩, pruned)

/-- Remove the unreachable components of the given categories. Each search but the last removes a
component, so there is one search more than components at most. -/
def prune (kinds : List ComponentKind) (doc : Document) : Pruning × Document :=
  pruneFrom kinds ((doc.componentsOf kinds).length + 1) doc

end ApiTidy.Document
