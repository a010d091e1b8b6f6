import ApiTidy.Json.Reader
import ApiTidy.Proofs.Except
import ApiTidy.Proofs.Json.Scan

/-!
A tree that is written as JSON is read back as it was. The tokens of a tree are at least as many as
the calls that read them, so the reader does not run out of fuel.
-/
namespace ApiTidy.Json
variable {fuel depth : Nat}

/-- The tokens of a tree are read as the tree, whatever follows them, where its containers may be
opened. -/
def Readable (node : Node) : Prop :=
  ∀ fuel depth left, node.depth ≤ depth → (tokensOf node).length ≤ fuel →
    valueFrom fuel depth (tokensOf node ++ left) = .ok (node, left)

theorem readable_scalar (value : Scalar) : Readable (.scalar value) := by
  intro fuel depth left _ hfuel
  cases fuel with
  | zero => cases hfuel
  | succ fuel => simp [tokensOf, valueFrom]

/-- No tree starts with the token that ends an array. -/
theorem tokensOf_append_ne (node : Node) (left rest : List Token) :
    tokensOf node ++ left ≠ .endArray :: rest := by
  intro heq
  cases node with
  | scalar value => cases heq
  | sequence items => cases items <;> cases heq
  | mapping entries => cases entries <;> cases heq

-- induction on the items that follow: each call reads one of them and leaves a comma or the end
theorem itemsFrom_tokensOf {item : Node} {others : List Node} (hitem : Readable item)
    (hothers : ∀ other ∈ others, Readable other) (left : List Token)
    (hdepth : Node.depthItems (item :: others) ≤ depth)
    (hfuel : (tokensOf item ++ tokensOfItems others).length ≤ fuel) :
    itemsFrom fuel depth (tokensOf item ++ tokensOfItems others ++ left) =
      .ok (item :: others, left) := by
  induction others generalizing item fuel with
  | nil =>
    obtain ⟨hfirst, -⟩ := Nat.max_le.1 hdepth
    rw [List.length_append, tokensOfItems, List.length_singleton] at hfuel
    obtain ⟨fuel, rfl⟩ : ∃ less, fuel = less + 1 := ⟨fuel - 1, by omega⟩
    rw [List.append_assoc, itemsFrom, hitem fuel depth _ hfirst (by omega)]
    rfl
  | cons next others ih =>
    obtain ⟨hfirst, hlater⟩ := Nat.max_le.1 hdepth
    obtain ⟨hnext, hrest⟩ := List.forall_mem_cons.1 hothers
    rw [List.length_append, tokensOfItems, List.length_cons] at hfuel
    obtain ⟨fuel, rfl⟩ : ∃ less, fuel = less + 1 := ⟨fuel - 1, by omega⟩
    have hread : itemsFrom fuel depth (tokensOf next ++ tokensOfItems others ++ left) =
        .ok (next :: others, left) := ih hnext hrest hlater (by omega)
    rw [List.append_assoc, itemsFrom, hitem fuel depth _ hfirst (by omega)]
    show (itemsFrom fuel depth (tokensOf next ++ tokensOfItems others ++ left) >>= _) = _
    rw [hread]
    rfl

theorem readable_sequence {items : List Node} (h : ∀ item ∈ items, Readable item) :
    Readable (.sequence items) := by
  intro fuel depth left hdepth hfuel
  have hopen : Node.depthItems items + 1 ≤ depth := hdepth
  obtain ⟨depth, rfl⟩ : ∃ less, depth = less + 1 := ⟨depth - 1, by omega⟩
  cases fuel with
  | zero => cases items <;> cases hfuel
  | succ fuel =>
    cases items with
    | nil => rfl
    | cons item others =>
      obtain ⟨hitem, hothers⟩ := List.forall_mem_cons.1 h
      have hread := itemsFrom_tokensOf hitem hothers left (Nat.le_of_succ_le_succ hopen)
        (Nat.le_of_succ_le_succ hfuel)
      rw [tokensOf, List.cons_append, valueFrom, hread]
      · rfl
      · intro rest heq
        rw [List.append_assoc] at heq
        exact tokensOf_append_ne item _ rest heq

theorem membersFrom_tokensOf (key : String) {value : Node} {others : Entries Node}
    (hvalue : Readable value) (hothers : ∀ other ∈ others, Readable other.2) (left : List Token)
    (hdepth : Node.depthEntries ((key, value) :: others) ≤ depth)
    (hfuel : (tokensOf value ++ tokensOfEntries others).length ≤ fuel) :
    membersFrom fuel depth (.scalar (.string key) :: .colon ::
        (tokensOf value ++ tokensOfEntries others ++ left)) = .ok ((key, value) :: others, left) := by
  induction others generalizing key value fuel with
  | nil =>
    obtain ⟨hfirst, -⟩ := Nat.max_le.1 hdepth
    rw [List.length_append, tokensOfEntries, List.length_singleton] at hfuel
    obtain ⟨fuel, rfl⟩ : ∃ less, fuel = less + 1 := ⟨fuel - 1, by omega⟩
    rw [List.append_assoc, membersFrom, hvalue fuel depth _ hfirst (by omega)]
    rfl
  | cons next others ih =>
    obtain ⟨hfirst, hlater⟩ := Nat.max_le.1 hdepth
    obtain ⟨hnext, hrest⟩ := List.forall_mem_cons.1 hothers
    rw [List.length_append, tokensOfEntries, List.length_cons] at hfuel
    obtain ⟨fuel, rfl⟩ : ∃ less, fuel = less + 1 := ⟨fuel - 1, by omega⟩
    have hread : membersFrom fuel depth (.scalar (.string next.1) :: .colon ::
        (tokensOf next.2 ++ tokensOfEntries others ++ left)) = .ok (next :: others, left) :=
      ih next.1 hnext hrest hlater (by simp only [List.length_cons] at hfuel; omega)
    rw [List.append_assoc, membersFrom, hvalue fuel depth _ hfirst (by omega)]
    show (membersFrom fuel depth (.scalar (.string next.1) :: .colon ::
      (tokensOf next.2 ++ tokensOfEntries others ++ left)) >>= _) = _
    rw [hread]
    rfl

theorem readable_mapping {entries : Entries Node} (hkeys : Entries.Distinct entries)
    (h : ∀ entry ∈ entries, Readable entry.2) : Readable (.mapping entries) := by
  intro fuel depth left hdepth hfuel
  have hopen : Node.depthEntries entries + 1 ≤ depth := hdepth
  obtain ⟨depth, rfl⟩ : ∃ less, depth = less + 1 := ⟨depth - 1, by omega⟩
  cases fuel with
  | zero => cases entries <;> cases hfuel
  | succ fuel =>
    cases entries with
    | nil => rfl
    | cons entry others =>
      obtain ⟨hvalue, hothers⟩ := List.forall_mem_cons.1 h
      have hmore : (tokensOf entry.2 ++ tokensOfEntries others).length ≤ fuel := by
        simp only [tokensOf, List.length_cons] at hfuel
        omega
      have hread := membersFrom_tokensOf entry.1 hvalue hothers left
        (Nat.le_of_succ_le_succ hopen) hmore
      rw [tokensOf]
      simp only [List.cons_append]
      rw [valueFrom, hread]
      · simp only [bind, Except.bind, Entries.ofPairs_of_distinct hkeys]
        rfl
      · exact fun _ heq => nomatch heq

theorem readable_of_wellFormed {node : Node} (h : node.WellFormed) : Readable node := by
  induction node using Node.induct with
  | scalar value => exact readable_scalar value
  | sequence items ih =>
    have hitems := Node.wellFormed_sequence.1 h
    exact readable_sequence fun item hmem => ih item hmem (hitems item hmem)
  | mapping entries ih =>
    obtain ⟨hkeys, hvalues⟩ := Node.wellFormed_mapping.1 h
    exact readable_mapping hkeys fun entry hmem => ih entry hmem (hvalues entry hmem)

/-- A tree without floats that may be opened is read back from its text as it was. -/
theorem parse_render {node : Node} (hwell : node.WellFormed) (hnumbers : node.Integral)
    (hdepth : node.depth ≤ maxDepth) : parse (render node) = .ok node := by
  have hread := readable_of_wellFormed hwell (2 * (tokensOf node).length + 1) maxDepth [] hdepth
    (by omega)
  rw [List.append_nil] at hread
  unfold parse
  rw [tokens_render hnumbers]
  simp only [bind, Except.bind, hread]
  rfl

end ApiTidy.Json
