import ApiTidy.Yaml.Tree

/-!
From tokens to the tree of a document. A text holds at most one document; one without any node or
mark holds none.
-/
namespace ApiTidy.Yaml

/-- Tag handles and the text that they stand for. -/
abbrev Handles := List (String × Tag)

/-- The handles that need no directive. -/
def standardHandles : Handles := [("!", .mark), ("!!", .standardStart)]

/-- The full tag of a handle and a suffix; a tag between brackets has no handle. -/
def fullTag (handles : Handles) (handle : String) (suffix : Tag) : Except Fault Tag :=
  if handle.isEmpty then .ok suffix
  else
    match handles.lookup handle with
    | some start => .ok (start ++ suffix)
    | none => .error (.undefinedHandle handle)

/-- The properties at the front of the tokens, in either order. -/
def readProperties (handles : Handles) :
    List Token → Except Fault (Properties String × List Token)
  | .anchor name :: .tag handle suffix :: rest
  | .tag handle suffix :: .anchor name :: rest => do
    return (⟨name, ← fullTag handles handle suffix⟩, rest)
  | .anchor name :: rest => .ok (⟨name, none⟩, rest)
  | .tag handle suffix :: rest => do return (⟨none, ← fullTag handles handle suffix⟩, rest)
  | rest => .ok (.none, rest)

mutual

/-- The node at the front of the tokens. Block collections may start if `block` holds, and the items
of a sequence that is not indented if `atKey` holds. -/
def readNode (handles : Handles) :
    Nat → Bool → Bool → List Token → Except Fault (Tree String × List Token)
  | 0, _, _, _ => .error .misplaced
  | _ + 1, _, _, .aliased name :: rest => .ok (.aliased name, rest)
  | fuel + 1, block, atKey, tokens => do
    let (properties, rest) ← readProperties handles tokens
    match rest, block, atKey with
    | .scalar style text :: rest, _, _ => return (.scalar properties style text, rest)
    | .flowSequenceStart :: rest, _, _ =>
      let (items, rest) ← readFlowItems handles fuel true rest
      return (.sequence properties items, rest)
    | .flowMappingStart :: rest, _, _ =>
      let (entries, rest) ← readFlowEntries handles fuel true rest
      return (.mapping properties entries, rest)
    | .blockSequenceStart :: rest, true, _ =>
      let (items, rest) ← readBlockItems handles fuel rest
      return (.sequence properties items, rest)
    | .blockMappingStart :: rest, true, _ =>
      let (entries, rest) ← readBlockEntries handles fuel rest
      return (.mapping properties entries, rest)
    | .blockEntry :: rest, _, true =>
      let (items, rest) ← readPlainItems handles fuel (.blockEntry :: rest)
      return (.sequence properties items, rest)
    | rest, _, _ =>
      if properties.anchor.isSome || properties.tag.isSome then
        return (.scalar properties .plain "", rest)
      else .error .misplaced

/-- A node, or nothing before one of the given tokens. -/
def readPart (handles : Handles) :
    Nat → Bool → Bool → List Token → List Token → Except Fault (Tree String × List Token)
  | 0, _, _, _, _ => .error .misplaced
  | fuel + 1, block, atKey, ends, tokens =>
    if tokens.head?.any (ends.contains ·) then .ok (.empty, tokens)
    else readNode handles fuel block atKey tokens

/-- A value after its mark, or nothing if there is no mark. -/
def readValue (handles : Handles) :
    Nat → Bool → List Token → List Token → Except Fault (Tree String × List Token)
  | 0, _, _, _ => .error .misplaced
  | fuel + 1, block, ends, .value :: rest => readPart handles fuel block block ends rest
  | _ + 1, _, _, rest => .ok (.empty, rest)

def readBlockItems (handles : Handles) :
    Nat → List Token → Except Fault (List (Tree String) × List Token)
  | fuel + 1, .blockEntry :: rest => do
    let (item, rest) ← readPart handles fuel true false [.blockEntry, .blockEnd] rest
    let (items, rest) ← readBlockItems handles fuel rest
    return (item :: items, rest)
  | _, .blockEnd :: rest => .ok ([], rest)
  | _, _ => .error .misplaced

/-- The items of a sequence that is not indented; it ends where no item follows. -/
def readPlainItems (handles : Handles) :
    Nat → List Token → Except Fault (List (Tree String) × List Token)
  | fuel + 1, .blockEntry :: rest => do
    let (item, rest) ← readPart handles fuel true false [.blockEntry, .key, .value, .blockEnd] rest
    let (items, rest) ← readPlainItems handles fuel rest
    return (item :: items, rest)
  | _, rest => .ok ([], rest)

def readBlockEntries (handles : Handles) :
    Nat → List Token → Except Fault (List (Tree String × Tree String) × List Token)
  | fuel + 1, .key :: rest => do
    let (key, rest) ← readPart handles fuel true true [.key, .value, .blockEnd] rest
    let (value, rest) ← readValue handles fuel true [.key, .value, .blockEnd] rest
    let (entries, rest) ← readBlockEntries handles fuel rest
    return ((key, value) :: entries, rest)
  | _, .blockEnd :: rest => .ok ([], rest)
  | _, _ => .error .misplaced

/-- The items of a flow sequence up to its end. An item may be a mapping of a single entry. -/
def readFlowItems (handles : Handles) :
    Nat → Bool → List Token → Except Fault (List (Tree String) × List Token)
  | _, _, .flowSequenceEnd :: rest => .ok ([], rest)
  | fuel + 1, false, .flowEntry :: rest => readFlowItems handles fuel true rest
  | fuel + 1, true, .key :: rest => do
    let (entry, rest) ← readFlowPair handles fuel rest
    let (items, rest) ← readFlowItems handles fuel false rest
    return (.mapping .none [entry] :: items, rest)
  | fuel + 1, true, tokens => do
    let (item, rest) ← readNode handles fuel false false tokens
    let (items, rest) ← readFlowItems handles fuel false rest
    return (item :: items, rest)
  | _, _, _ => .error .misplaced

/-- The entry of a mapping that is an item of a flow sequence. Where its key is left out, the token
that follows is passed over. -/
def readFlowPair (handles : Handles) :
    Nat → List Token → Except Fault ((Tree String × Tree String) × List Token)
  | fuel + 1, next :: rest => do
    let (key, rest) ←
      if next = .value || next = .flowEntry || next = .flowSequenceEnd then .ok (.empty, rest)
      else readNode handles fuel false false (next :: rest)
    let (value, rest) ← readValue handles fuel false [.flowEntry, .flowSequenceEnd] rest
    return ((key, value), rest)
  | _, _ => .error .misplaced

/-- The entries of a flow mapping up to its end. A node without a mark is a key. -/
def readFlowEntries (handles : Handles) :
    Nat → Bool → List Token → Except Fault (List (Tree String × Tree String) × List Token)
  | _, _, .flowMappingEnd :: rest => .ok ([], rest)
  | fuel + 1, false, .flowEntry :: rest => readFlowEntries handles fuel true rest
  | fuel + 1, true, .key :: rest => do
    let (key, rest) ←
      readPart handles fuel false false [.value, .flowEntry, .flowMappingEnd] rest
    let (value, rest) ← readValue handles fuel false [.flowEntry, .flowMappingEnd] rest
    let (entries, rest) ← readFlowEntries handles fuel false rest
    return ((key, value) :: entries, rest)
  | fuel + 1, true, tokens => do
    let (key, rest) ← readNode handles fuel false false tokens
    let (entries, rest) ← readFlowEntries handles fuel false rest
    return ((key, .empty) :: entries, rest)
  | _, _, _ => .error .misplaced

end

/-- The directives at the front of the tokens: one version that is understood, and tag handles. -/
def readDirectives : Bool → Handles → List Token → Except Fault (Handles × List Token)
  | hasVersion, handles, .version major minor :: rest =>
    if hasVersion then .error .repeatedDirective
    else if major = 1 && (minor = 1 || minor = 2) then readDirectives true handles rest
    else .error .badDirective
  | hasVersion, handles, .tagHandle handle start :: rest =>
    if (handles.lookup handle).isSome then .error .repeatedDirective
    else readDirectives hasVersion ((handle, start) :: handles) rest
  | _, handles, rest => .ok (handles, rest)

/-- Where the document after its mark is left out. -/
def endsDocument : Token → Bool
  | .version _ _ | .tagHandle _ _ | .documentStart | .documentEnd | .streamEnd => true
  | _ => false

/-- The tree of the only document, if there is one. -/
def readDocument (tokens : List Token) : Except Fault (Option (Tree String)) := do
  let fuel := 4 * tokens.length + 4
  let (handles, rest) ← readDirectives false [] tokens
  let handles := handles ++ standardHandles
  let (tree, rest) ←
    match rest with
    | .documentStart :: rest =>
      if rest.head?.any endsDocument then .ok (some .empty, rest)
      else (readNode handles fuel true false rest).map fun (tree, rest) => (some tree, rest)
    | [.streamEnd] => if tokens.length = 1 then .ok (none, rest) else .error .misplaced
    | rest =>
      if rest.length < tokens.length then .error .misplaced
      else (readNode handles fuel true false rest).map fun (tree, rest) => (some tree, rest)
  if rest.dropWhile (· = .documentEnd) = [.streamEnd] then return tree
  else .error .secondDocument

end ApiTidy.Yaml
