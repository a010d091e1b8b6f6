import ApiTidy.Document.Reachability
import ApiTidy.Proofs.Node

/-!
Where the references of a tree are, and which of them dangle. The report of dangling references
looks at the whole tree; the search for what is in use looks at parts of it.
-/
namespace ApiTidy

theorem Reference.mem_insertOrdered {reference other : Reference} {references : List Reference} :
    other ∈ insertOrdered reference references ↔ other = reference ∨ other ∈ references := by
  induction references with
  | nil => simp [insertOrdered]
  | cons first rest ih =>
    unfold insertOrdered
    split
    next hsame => simp [hsame]
    next =>
      split
      next => exact List.mem_cons
      next => rw [List.mem_cons, List.mem_cons, ih, or_left_comm]

@[simp] theorem Reference.mem_ordered {reference : Reference} {references : List Reference} :
    reference ∈ ordered references ↔ reference ∈ references := by
  unfold ordered
  induction references with
  | nil => rfl
  | cons first rest ih => rw [List.foldr_cons, mem_insertOrdered, ih, List.mem_cons]

namespace Node
variable {reference : Reference}

theorem mem_referencesItems {items : List Node} :
    reference ∈ referencesItems items ↔ ∃ item ∈ items, reference ∈ item.references := by
  induction items with
  | nil => simp [referencesItems]
  | cons first rest ih => simp [referencesItems, ih]

theorem mem_referencesEntries {entries : Entries Node} :
    reference ∈ referencesEntries entries ↔ ∃ entry ∈ entries, reference ∈ entry.2.references := by
  induction entries with
  | nil => simp [referencesEntries]
  | cons first rest ih => simp [referencesEntries, ih]

theorem mem_references_sequence {items : List Node} :
    reference ∈ (Node.sequence items).references ↔ ∃ item ∈ items, reference ∈ item.references :=
  mem_referencesItems

theorem mem_references_mapping {entries : Entries Node} :
    reference ∈ (Node.mapping entries).references ↔
      Reference.ofNode? (.mapping entries) = some reference ∨
        ∃ entry ∈ entries, reference ∈ entry.2.references := by
  show reference ∈ (Reference.ofNode? (.mapping entries)).toList ++ referencesEntries entries ↔ _
  rw [List.mem_append, mem_referencesEntries, Option.mem_toList]

/-- The references of a node that are in none of its entries: a mapping may be one itself. -/
def ownReferences : Node → List Reference
  | .mapping entries => (Reference.ofNode? (.mapping entries)).toList
  | other => other.references

theorem mem_references_iff {node : Node} :
    reference ∈ node.references ↔ reference ∈ node.ownReferences ∨
      ∃ entries, node = .mapping entries ∧ ∃ entry ∈ entries, reference ∈ entry.2.references := by
  cases node with
  | scalar value => simp [ownReferences]
  | sequence items => simp [ownReferences]
  | mapping entries => simp [ownReferences, mem_references_mapping]

theorem ownReferences_subset (node : Node) : node.ownReferences ⊆ node.references :=
  fun _ h => mem_references_iff.2 (.inl h)

theorem references_of_mem_subset {entries : Entries Node} {entry : String × Node}
    (h : entry ∈ entries) : entry.2.references ⊆ (Node.mapping entries).references :=
  fun _ href => mem_references_mapping.2 (.inr ⟨entry, h, href⟩)

theorem references_of_field?_subset {node value : Node} {key : String}
    (h : node.field? key = some value) : value.references ⊆ node.references := by
  cases node with
  | scalar scalar => simp [field?] at h
  | sequence items => simp [field?] at h
  | mapping entries => exact references_of_mem_subset (Entries.mem_of_get? h)

/-- A change of a value other than `$ref` that adds no reference to it adds none to the mapping. -/
theorem references_modifyField_subset {f : Node → Node} {key : String} (hkey : refKey ≠ key)
    (hf : ∀ value, (f value).references ⊆ value.references) (node : Node) :
    (node.modifyField f key).references ⊆ node.references := by
  cases node with
  | scalar value => exact List.Subset.refl _
  | sequence items => exact List.Subset.refl _
  | mapping entries =>
    intro found h
    have hsame : Reference.ofNode? (.mapping (Entries.modify f key entries)) =
        Reference.ofNode? (.mapping entries) := by
      simp only [Reference.ofNode?, refPointer?, field?, Entries.get?_modify_of_ne hkey]
    rcases mem_references_mapping.1 h with hown | ⟨entry, hmem, href⟩
    · exact mem_references_mapping.2 (.inl (hsame ▸ hown))
    · rcases Entries.mem_modify hmem with hold | ⟨value, hvalue, rfl⟩
      · exact references_of_mem_subset hold href
      · exact references_of_mem_subset hvalue (hf value href)

/-- Entries that are dropped take their references along, or the one that the mapping was. -/
theorem references_filter_subset (p : String → Bool) (entries : Entries Node) :
    (Node.mapping (entries.filter fun entry => p entry.1)).references ⊆
      (Node.mapping entries).references := by
  intro found h
  rcases mem_references_mapping.1 h with hown | ⟨entry, hmem, href⟩
  · refine mem_references_mapping.2 (.inl ?_)
    rw [← hown]
    simp only [Reference.ofNode?, refPointer?, field?] at hown ⊢
    rw [Entries.get?_filter] at hown ⊢
    split at hown
    next hkept => rw [if_pos hkept]
    next => simp at hown
  · exact references_of_mem_subset (List.mem_filter.1 hmem).1 href

/-- Values that are changed without a new reference add none to the mapping that holds them. -/
theorem references_mapValues_subset {g : String → Node → Node}
    (hpointer : ∀ value, (g refKey value).string? = value.string?)
    (hg : ∀ key value, (g key value).references ⊆ value.references) (entries : Entries Node) :
    (Node.mapping (Entries.mapValues g entries)).references ⊆
      (Node.mapping entries).references := by
  intro found h
  have hsame : Reference.ofNode? (.mapping (Entries.mapValues g entries)) =
      Reference.ofNode? (.mapping entries) :=
    congrArg (·.bind Reference.parse?)
      (refPointer?_mapping hpointer (Entries.get?_mapValues g entries refKey))
  rcases mem_references_mapping.1 h with hown | ⟨entry, hmem, href⟩
  · exact mem_references_mapping.2 (.inl (hsame ▸ hown))
  · obtain ⟨old, hold, rfl⟩ := List.mem_map.1 hmem
    exact references_of_mem_subset hold (hg old.1 old.2 href)

theorem references_insert_subset {key : String} {value : Node} (hkey : refKey ≠ key)
    (hvalue : value.references = []) (entries : Entries Node) :
    (Node.mapping (Entries.insert entries key value)).references ⊆
      (Node.mapping entries).references := by
  intro found h
  have hsame : Reference.ofNode? (.mapping (Entries.insert entries key value)) =
      Reference.ofNode? (.mapping entries) := by
    simp only [Reference.ofNode?, refPointer?, field?, Entries.get?_insert_of_ne hkey]
  rcases mem_references_mapping.1 h with hown | ⟨entry, hmem, href⟩
  · exact mem_references_mapping.2 (.inl (hsame ▸ hown))
  · rcases Entries.mem_insert hmem with rfl | hold
    · simp [hvalue] at href
    · exact references_of_mem_subset hold href

end Node

namespace Document
variable {doc : Document} {reference : Reference}

@[simp] theorem mem_danglingReferences :
    reference ∈ doc.danglingReferences ↔
      reference ∈ doc.references ∧ doc.target? reference = none := by
  simp [danglingReferences]

end Document
end ApiTidy
