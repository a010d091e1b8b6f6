import ApiTidy.Proofs.Yaml.Tokens

/-!
The tokens of a tree are read as the tree. Each call of the reader takes a token or passes to a part,
so three calls for each token are enough.
-/
namespace ApiTidy.Yaml

mutual

/-- The tree of a node as it is written, without properties. -/
def treeOf {ν : Type} : Node → Tree ν
  | .scalar value => .scalar .none (styleOf value) (String.ofList (spelling value))
  | .sequence items => .sequence .none (treesOf items)
  | .mapping entries => .mapping .none (pairsOf entries)

def treesOf {ν : Type} : List Node → List (Tree ν)
  | [] => []
  | item :: rest => treeOf item :: treesOf rest

def pairsOf {ν : Type} : List (String × Node) → List (Tree ν × Tree ν)
  | [] => []
  | (key, value) :: rest => (.scalar .none (.ofText key.toList) key, treeOf value) :: pairsOf rest

end

section Read
variable {handles : Handles} {fuel : Nat} {block atKey flat : Bool} {rest left : List Token}
  {items : List (Tree String)} {entries : List (Tree String × Tree String)}

theorem readNode_scalar (style : ScalarStyle) (text : String) :
    readNode handles (fuel + 1) block atKey (.scalar style text :: rest) =
      .ok (.scalar .none style text, rest) := by
  rw [readNode]
  · rfl
  · simp

theorem readNode_block_sequence (h : readBlockItems handles fuel rest = .ok (items, left)) :
    readNode handles (fuel + 1) true atKey (.blockSequenceStart :: rest) =
      .ok (.sequence .none items, left) := by
  rw [readNode]
  · exact Except.bind_eq_ok.2 ⟨_, rfl, Except.bind_eq_ok.2 ⟨(items, left), h, rfl⟩⟩
  · simp

theorem readNode_block_mapping (h : readBlockEntries handles fuel rest = .ok (entries, left)) :
    readNode handles (fuel + 1) true atKey (.blockMappingStart :: rest) =
      .ok (.mapping .none entries, left) := by
  rw [readNode]
  · exact Except.bind_eq_ok.2 ⟨_, rfl, Except.bind_eq_ok.2 ⟨(entries, left), h, rfl⟩⟩
  · simp

theorem readNode_plain_sequence
    (h : readPlainItems handles fuel (.blockEntry :: rest) = .ok (items, left)) :
    readNode handles (fuel + 1) true true (.blockEntry :: rest) =
      .ok (.sequence .none items, left) := by
  rw [readNode]
  · exact Except.bind_eq_ok.2 ⟨_, rfl, Except.bind_eq_ok.2 ⟨(items, left), h, rfl⟩⟩
  · simp

theorem readNode_empty_sequence :
    readNode handles (fuel + 1) block atKey (.flowSequenceStart :: .flowSequenceEnd :: rest) =
      .ok (.sequence .none [], rest) := by
  have hitems : readFlowItems handles fuel true (.flowSequenceEnd :: rest) = .ok ([], rest) := by
    cases fuel <;> rw [readFlowItems]
  rw [readNode]
  · exact Except.bind_eq_ok.2 ⟨_, rfl, Except.bind_eq_ok.2 ⟨([], rest), hitems, rfl⟩⟩
  · simp

theorem readNode_empty_mapping :
    readNode handles (fuel + 1) block atKey (.flowMappingStart :: .flowMappingEnd :: rest) =
      .ok (.mapping .none [], rest) := by
  have hentries : readFlowEntries handles fuel true (.flowMappingEnd :: rest) = .ok ([], rest) := by
    cases fuel <;> rw [readFlowEntries]
  rw [readNode]
  · exact Except.bind_eq_ok.2 ⟨_, rfl, Except.bind_eq_ok.2 ⟨([], rest), hentries, rfl⟩⟩
  · simp

/-- The tokens that a node starts with. -/
def opensNode (flat : Bool) : Token → Bool
  | .scalar _ _ | .flowSequenceStart | .flowMappingStart | .blockSequenceStart
  | .blockMappingStart => true
  | .blockEntry => flat
  | _ => false

theorem exists_tokensOf (flat : Bool) (node : Node) :
    ∃ token more, tokensOf flat node = token :: more ∧ opensNode flat token = true := by
  cases node with
  | scalar value => exact ⟨_, _, rfl, rfl⟩
  | sequence items =>
    cases items with
    | nil => exact ⟨_, _, rfl, rfl⟩
    | cons item others => cases flat <;> exact ⟨_, _, rfl, rfl⟩
  | mapping entries =>
    cases entries with
    | nil => exact ⟨_, _, rfl, rfl⟩
    | cons entry others => exact ⟨_, _, rfl, rfl⟩

/-- A part that is there is a node. -/
theorem readPart_tokensOf {ends : List Token} (node : Node)
    (hends : ∀ token ∈ ends, opensNode flat token = false) :
    readPart handles (fuel + 1) block atKey ends (tokensOf flat node ++ rest) =
      readNode handles fuel block atKey (tokensOf flat node ++ rest) := by
  obtain ⟨token, more, htokens, hopens⟩ := exists_tokensOf flat node
  have hfree : token ∉ ends := fun hmem => by simp [hends token hmem] at hopens
  rw [readPart, htokens]
  simp [hfree]

/-- The tokens of a node are read as its tree. Those of a flat sequence end where no item follows. -/
def Parsed (node : Node) : Prop :=
  ∀ ⦃handles : Handles⦄ ⦃fuel : Nat⦄ ⦃flat atKey : Bool⦄ ⦃rest : List Token⦄,
    3 * (tokensOf flat node).length ≤ fuel →
    (flat = true → atKey = true ∧ rest.head? ≠ some .blockEntry) →
    readNode handles fuel true atKey (tokensOf flat node ++ rest) = .ok (treeOf node, rest)

end Read

section Parts
variable {handles : Handles} {fuel : Nat} {rest : List Token}

theorem readBlockItems_tokensOfItems {items : List Node} (hitems : ∀ item ∈ items, Parsed item)
    (hfuel : 3 * (tokensOfItems items).length ≤ fuel) :
    readBlockItems handles fuel (tokensOfItems items ++ .blockEnd :: rest) =
      .ok (treesOf items, rest) := by
  induction items generalizing fuel with
  | nil => cases fuel <;> simp [tokensOfItems, readBlockItems, treesOf]
  | cons item others ih =>
    obtain ⟨hitem, hothers⟩ := List.forall_mem_cons.1 hitems
    simp only [tokensOfItems, List.length_cons, List.length_append, List.cons_append] at hfuel
    obtain ⟨less, rfl⟩ : ∃ less, fuel = less + 2 := ⟨fuel - 2, by omega⟩
    have hfirst : readPart handles (less + 1) true false [.blockEntry, .blockEnd]
        (tokensOf false item ++ (tokensOfItems others ++ .blockEnd :: rest)) =
          .ok (treeOf item, tokensOfItems others ++ .blockEnd :: rest) :=
      (readPart_tokensOf item (by simp [opensNode])).trans (hitem (by omega) (by simp))
    have hlater : readBlockItems handles (less + 1) _ = _ := ih hothers (by omega)
    rw [tokensOfItems, List.cons_append, List.cons_append, List.append_assoc, readBlockItems]
    exact Except.bind_eq_ok.2 ⟨_, hfirst, Except.bind_eq_ok.2 ⟨_, hlater, rfl⟩⟩

/-- The items of a flat sequence, of which the first call that reads the sequence takes none. -/
theorem readPlainItems_tokensOfItems {items : List Node} (hitems : ∀ item ∈ items, Parsed item)
    (hrest : rest.head? ≠ some .blockEntry)
    (hfuel : 3 * (tokensOfItems items).length ≤ fuel + 1) :
    readPlainItems handles fuel (tokensOfItems items ++ rest) = .ok (treesOf items, rest) := by
  induction items generalizing fuel with
  | nil =>
    rw [tokensOfItems, List.nil_append, readPlainItems]
    · rfl
    · rintro less more - rfl
      exact hrest rfl
  | cons item others ih =>
    obtain ⟨hitem, hothers⟩ := List.forall_mem_cons.1 hitems
    simp only [tokensOfItems, List.length_cons, List.length_append, List.cons_append] at hfuel
    obtain ⟨less, rfl⟩ : ∃ less, fuel = less + 2 := ⟨fuel - 2, by omega⟩
    have hfirst : readPart handles (less + 1) true false [.blockEntry, .key, .value, .blockEnd]
        (tokensOf false item ++ (tokensOfItems others ++ rest)) =
          .ok (treeOf item, tokensOfItems others ++ rest) :=
      (readPart_tokensOf item (by simp [opensNode])).trans (hitem (by omega) (by simp))
    have hlater : readPlainItems handles (less + 1) _ = _ := ih hothers (by omega)
    rw [tokensOfItems, List.cons_append, List.cons_append, List.append_assoc, readPlainItems]
    exact Except.bind_eq_ok.2 ⟨_, hfirst, Except.bind_eq_ok.2 ⟨_, hlater, rfl⟩⟩

theorem readBlockEntries_tokensOfEntries {entries : Entries Node}
    (hvalues : ∀ entry ∈ entries, Parsed entry.2)
    (hfuel : 3 * (tokensOfEntries entries).length ≤ fuel) :
    readBlockEntries handles fuel (tokensOfEntries entries ++ .blockEnd :: rest) =
      .ok (pairsOf entries, rest) := by
  induction entries generalizing fuel with
  | nil => cases fuel <;> simp [tokensOfEntries, readBlockEntries, pairsOf]
  | cons entry others ih =>
    obtain ⟨key, value⟩ := entry
    obtain ⟨hvalue, hothers⟩ : Parsed value ∧ ∀ part ∈ others, Parsed part.2 :=
      List.forall_mem_cons.1 hvalues
    simp only [tokensOfEntries, List.length_cons, List.length_append, List.cons_append] at hfuel
    obtain ⟨less, rfl⟩ : ∃ less, fuel = less + 4 := ⟨fuel - 4, by omega⟩
    have hkey : readPart handles (less + 3) true true [.key, .value, .blockEnd]
        (.scalar (.ofText key.toList) key :: .value :: (tokensOf (isSimpleKey key) value ++
          (tokensOfEntries others ++ .blockEnd :: rest))) =
        .ok (.scalar .none (.ofText key.toList) key, .value :: (tokensOf (isSimpleKey key) value ++
          (tokensOfEntries others ++ .blockEnd :: rest))) := by
      rw [readPart, List.head?_cons]
      exact readNode_scalar _ _
    have hnext : (tokensOfEntries others ++ .blockEnd :: rest).head? ≠ some .blockEntry := by
      cases others <;> simp [tokensOfEntries]
    have hread : readValue handles (less + 3) true [.key, .value, .blockEnd]
        (.value :: (tokensOf (isSimpleKey key) value ++
          (tokensOfEntries others ++ .blockEnd :: rest))) =
        .ok (treeOf value, tokensOfEntries others ++ .blockEnd :: rest) := by
      rw [readValue, readPart_tokensOf value (by simp [opensNode])]
      exact hvalue (by omega) fun _ => ⟨rfl, hnext⟩
    have hlater : readBlockEntries handles (less + 3) _ = _ := ih hothers (by omega)
    rw [tokensOfEntries, List.cons_append, List.cons_append, List.cons_append, List.cons_append,
      List.cons_append, List.cons_append, List.append_assoc, readBlockEntries]
    exact Except.bind_eq_ok.2 ⟨_, hkey, Except.bind_eq_ok.2 ⟨_, hread,
      Except.bind_eq_ok.2 ⟨_, hlater, rfl⟩⟩⟩

end Parts

theorem parsed_scalar (value : Scalar) : Parsed (.scalar value) := by
  intro handles fuel flat atKey rest hfuel _
  cases fuel with
  | zero => cases hfuel
  | succ fuel => exact readNode_scalar _ _

theorem parsed_empty_sequence : Parsed (.sequence []) := by
  intro handles fuel flat atKey rest hfuel _
  cases fuel with
  | zero => cases hfuel
  | succ fuel => exact readNode_empty_sequence

theorem parsed_empty_mapping : Parsed (.mapping []) := by
  intro handles fuel flat atKey rest hfuel _
  cases fuel with
  | zero => cases hfuel
  | succ fuel => exact readNode_empty_mapping

theorem parsed_sequence {item : Node} {others : List Node}
    (h : ∀ node ∈ item :: others, Parsed node) : Parsed (.sequence (item :: others)) := by
  intro handles fuel flat atKey rest hfuel hflat
  cases flat with
  | true =>
    obtain ⟨rfl, hrest⟩ := hflat rfl
    have htokens : tokensOf true (.sequence (item :: others)) = tokensOfItems (item :: others) := rfl
    rw [htokens] at hfuel ⊢
    obtain ⟨less, rfl⟩ : ∃ less, fuel = less + 1 := ⟨fuel - 1, by
      rw [tokensOfItems] at hfuel
      simp at hfuel
      omega⟩
    exact readNode_plain_sequence (readPlainItems_tokensOfItems h hrest hfuel)
  | false =>
    have htokens : tokensOf false (.sequence (item :: others)) =
      .blockSequenceStart :: tokensOfItems (item :: others) ++ [.blockEnd] := rfl
    rw [htokens] at hfuel ⊢
    simp only [List.cons_append, List.length_cons, List.length_append, List.append_assoc] at hfuel ⊢
    obtain ⟨less, rfl⟩ : ∃ less, fuel = less + 1 := ⟨fuel - 1, by omega⟩
    exact readNode_block_sequence (readBlockItems_tokensOfItems h (by omega))

theorem parsed_mapping {entry : String × Node} {others : Entries Node}
    (h : ∀ part ∈ entry :: others, Parsed part.2) : Parsed (.mapping (entry :: others)) := by
  intro handles fuel flat atKey rest hfuel _
  have htokens : tokensOf flat (.mapping (entry :: others)) =
    .blockMappingStart :: tokensOfEntries (entry :: others) ++ [.blockEnd] := rfl
  rw [htokens] at hfuel ⊢
  simp only [List.cons_append, List.length_cons, List.length_append, List.append_assoc] at hfuel ⊢
  obtain ⟨less, rfl⟩ : ∃ less, fuel = less + 1 := ⟨fuel - 1, by omega⟩
  exact readNode_block_mapping (readBlockEntries_tokensOfEntries h (by omega))

theorem parsed (node : Node) : Parsed node := by
  induction node using Node.induct with
  | scalar value => exact parsed_scalar value
  | sequence items ih =>
    cases items with
    | nil => exact parsed_empty_sequence
    | cons item others => exact parsed_sequence ih
  | mapping entries ih =>
    cases entries with
    | nil => exact parsed_empty_mapping
    | cons entry others => exact parsed_mapping ih

/-- The tokens of a whole text are read as the tree of its only document. -/
theorem readDocument_tokensOf (node : Node) :
    readDocument (tokensOf false node ++ [.streamEnd]) = .ok (some (treeOf node)) := by
  obtain ⟨token, more, htokens, hopens⟩ := exists_tokensOf false node
  have hread : readNode standardHandles (4 * (more.length + 1 + 1) + 4) true false
      (token :: (more ++ [.streamEnd])) = .ok (treeOf node, [.streamEnd]) := by
    have hnode : readNode standardHandles (4 * (more.length + 1 + 1) + 4) true false
        (tokensOf false node ++ [.streamEnd]) = .ok (treeOf node, [.streamEnd]) :=
      parsed node (by rw [htokens, List.length_cons]; omega) fun h => nomatch h
    rwa [htokens] at hnode
  rw [htokens, readDocument]
  cases token <;> cases hopens <;>
    simp [readDirectives, hread, Except.map, bind, Except.bind, pure, Except.pure]

end ApiTidy.Yaml
