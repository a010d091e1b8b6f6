import ApiTidy.Change

/-! Marking what may be null, so that an absent value may stand for null. -/
namespace ApiTidy.Nullable

/-- Whether a mapping says `nullable: true` and its marker is not `true`. -/
def needsMarker (marker : String) (entries : Entries Node) : Bool :=
  (Entries.get? entries "nullable").bind Node.bool? = some true
    && (Entries.get? entries marker).bind Node.bool? ≠ some true

mutual

/-- Set the marker of every mapping that says `nullable: true`. -/
def mark (marker : String) : Node → Node × Nat
  | .scalar value => (.scalar value, 0)
  | .sequence items =>
    let (changed, count) := markItems marker items
    (.sequence changed, count)
  | .mapping entries =>
    if needsMarker marker entries then
      let (changed, count) := markEntries marker true entries
      let marked :=
        if Entries.contains entries marker then changed else changed ++ [(marker, .ofBool true)]
      (.mapping marked, count + 1)
    else
      let (changed, count) := markEntries marker false entries
      (.mapping changed, count)

def markItems (marker : String) : List Node → List Node × Nat
  | [] => ([], 0)
  | item :: rest =>
    let (changed, count) := mark marker item
    let (changedRest, further) := markItems marker rest
    (changed :: changedRest, count + further)

/-- The entries of a mapping, in which the value of the marker is replaced if `marked` holds. -/
def markEntries (marker : String) (marked : Bool) :
    List (String × Node) → List (String × Node) × Nat
  | [] => ([], 0)
  | (key, value) :: rest =>
    let (changed, count) :=
      if marked && key = marker then (.ofBool true, 0) else mark marker value
    let (changedRest, further) := markEntries marker marked rest
    ((key, changed) :: changedRest, count + further)

end

end ApiTidy.Nullable
