import ApiTidy.Json.Token

/-!
Reading a JSON value. A repeated key keeps its first place and its last value, and at most
`maxDepth` containers may be open at a time.
-/
namespace ApiTidy.Json

/-- How many containers may be open at a time. -/
def maxDepth : Nat := 127

mutual

/-- The value at the front of the tokens; `depth` more containers may be opened. -/
def valueFrom : Nat → Nat → List Token → Except Fault (Node × List Token)
  | 0, _, _ => .error .unfinished
  | _ + 1, _, [] => .error .unfinished
  | fuel + 1, depth, token :: rest =>
    match token, depth with
    | .scalar value, _ => .ok (.scalar value, rest)
    | .beginArray, 0 => .error .tooDeep
    | .beginObject, 0 => .error .tooDeep
    | .beginArray, depth + 1 =>
      match rest with
      | .endArray :: left => .ok (.sequence [], left)
      | rest => do
        let (items, left) ← itemsFrom fuel depth rest
        return (.sequence items, left)
    | .beginObject, depth + 1 =>
      match rest with
      | .endObject :: left => .ok (.mapping [], left)
      | rest => do
        let (members, left) ← membersFrom fuel depth rest
        return (.mapping (Entries.ofPairs members), left)
    | _, _ => .error .misplaced

/-- The items of an array from an item on, up to its end. -/
def itemsFrom : Nat → Nat → List Token → Except Fault (List Node × List Token)
  | 0, _, _ => .error .unfinished
  | fuel + 1, depth, tokens => do
    let (item, left) ← valueFrom fuel depth tokens
    match left with
    | .comma :: rest =>
      let (items, left) ← itemsFrom fuel depth rest
      return (item :: items, left)
    | .endArray :: rest => return ([item], rest)
    | [] => .error .unfinished
    | _ => .error .misplaced

/-- The members of an object from a key on, up to its end. -/
def membersFrom : Nat → Nat → List Token → Except Fault (List (String × Node) × List Token)
  | 0, _, _ => .error .unfinished
  | fuel + 1, depth, .scalar (.string key) :: .colon :: tokens => do
    let (value, left) ← valueFrom fuel depth tokens
    match left with
    | .comma :: rest =>
      let (members, left) ← membersFrom fuel depth rest
      return ((key, value) :: members, left)
    | .endObject :: rest => return ([(key, value)], rest)
    | [] => .error .unfinished
    | _ => .error .misplaced
  | _ + 1, _, [] => .error .unfinished
  | _ + 1, _, _ => .error .misplaced

end

def parse (text : String) : Except Fault Node := do
  let tokens ← tokens text.toList
  let (value, left) ← valueFrom (2 * tokens.length + 1) maxDepth tokens
  if left.isEmpty then return value else .error .trailing

end ApiTidy.Json
