import ApiTidy.Change

/-! Removing references that a list of alternatives has already. -/
namespace ApiTidy.Alternatives

/-- The keys of lists of alternatives. -/
def isAlternation (key : String) : Bool := key = "oneOf" || key = "anyOf"

/-- The items without the references to pointers that were seen; other items always stay. -/
def dropRepeated : List String → List Node → List Node
  | _, [] => []
  | seen, item :: rest =>
    match item.refPointer? with
    | none => item :: dropRepeated seen rest
    | some pointer =>
      if seen.contains pointer then dropRepeated seen rest
      else item :: dropRepeated (pointer :: seen) rest

/-- Keep the first reference to each pointer, and every item that is no reference. -/
def dedupeReferences : Change (List Node) := fun items =>
  let kept := dropRepeated [] items
  (kept, items.length - kept.length)

mutual

/-- Remove repeated references from all lists of alternatives of a tree. Nothing is counted inside
an item that is removed. -/
def dedupe : Node → Node × Nat
  | .scalar value => (.scalar value, 0)
  | .sequence items =>
    let (changed, count) := dedupeItems items
    (.sequence changed, count)
  | .mapping entries =>
    let (changed, count) := dedupeEntries entries
    (.mapping changed, count)

def dedupeItems : List Node → List Node × Nat
  | [] => ([], 0)
  | item :: rest =>
    let (changed, count) := dedupe item
    let (changedRest, further) := dedupeItems rest
    (changed :: changedRest, count + further)

/-- The items of a list of alternatives, of which some pointers were seen. -/
def dedupeList (seen : List String) : List Node → List Node × Nat
  | [] => ([], 0)
  | item :: rest =>
    if item.refPointer?.any (seen.contains ·) then
      let (changedRest, further) := dedupeList seen rest
      (changedRest, further + 1)
    else
      let (changed, count) := dedupe item
      let (changedRest, further) := dedupeList (item.refPointer?.toList ++ seen) rest
      (changed :: changedRest, count + further)

def dedupeEntries : List (String × Node) → List (String × Node) × Nat
  | [] => ([], 0)
  | (key, .sequence items) :: rest =>
    let (changed, count) := if isAlternation key then dedupeList [] items else dedupeItems items
    let (changedRest, further) := dedupeEntries rest
    ((key, .sequence changed) :: changedRest, count + further)
  | (key, value) :: rest =>
    let (changed, count) := dedupe value
    let (changedRest, further) := dedupeEntries rest
    ((key, changed) :: changedRest, count + further)

end

end ApiTidy.Alternatives
