import ApiTidy.Node.Basic

/-! Changes of trees that cannot fail and count what they change. -/
namespace ApiTidy

/-- A change of a value, with the number of edits made. -/
abbrev Change (α : Type) := α → α × Nat

namespace Change
variable {α : Type}

def keep : Change α := fun value => (value, 0)

def andThen (first second : Change α) : Change α := fun value =>
  let (changed, count) := first value
  let (changedAgain, further) := second changed
  (changedAgain, count + further)

def onItems (change : Change α) : Change (List α)
  | [] => ([], 0)
  | item :: rest =>
    let (changed, count) := change item
    let (changedRest, further) := onItems change rest
    (changed :: changedRest, count + further)

def onValues (change : String → Change α) : Change (Entries α)
  | [] => ([], 0)
  | (key, value) :: rest =>
    let (changed, count) := change key value
    let (changedRest, further) := onValues change rest
    ((key, changed) :: changedRest, count + further)

def inMapping (change : Change (Entries Node)) : Change Node
  | .mapping entries =>
    let (changed, count) := change entries
    (.mapping changed, count)
  | node => (node, 0)

def inSequence (change : Change (List Node)) : Change Node
  | .sequence items =>
    let (changed, count) := change items
    (.sequence changed, count)
  | node => (node, 0)

def atKey (key : String) (change : Change α) : Change (Entries α) := fun entries =>
  match Entries.get? entries key with
  | some value =>
    let (changed, count) := change value
    (Entries.insert entries key changed, count)
  | none => (entries, 0)

def atField (key : String) (change : Change Node) : Change Node :=
  inMapping (atKey key change)

/-- Keep the items that are wanted, and count the others. -/
def keepItems (wanted : α → Bool) : Change (List α) := fun items =>
  let kept := items.filter wanted
  (kept, items.length - kept.length)

end Change
end ApiTidy
