import ApiTidy.Node.Basic

/-! Merging one tree into another without losing anything of the second. -/
namespace ApiTidy.Node

mutual

/-- What `source` adds to `target`. Mappings merge key by key, and keys that only `source` has are
appended; any other conflict keeps what `target` has. A reference on either side is left whole. -/
def merge (target : Node) : Node → Node
  | .mapping source =>
    if target.refPointer?.isSome || (Node.mapping source).refPointer?.isSome then target
    else
      match target with
      | .mapping entries => .mapping (mergeEntries entries source)
      | other => other
  | _ => target

/-- The entries of the second list, merged one after another into the first. -/
def mergeEntries (entries : List (String × Node)) : List (String × Node) → List (String × Node)
  | [] => entries
  | (key, value) :: rest =>
    let merged :=
      match Entries.get? entries key with
      | some existing => merge existing value
      | none => value
    mergeEntries (Entries.insert entries key merged) rest

end

end ApiTidy.Node
