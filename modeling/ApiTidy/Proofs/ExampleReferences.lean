import ApiTidy.Proofs.Pipeline
import ApiTidy.Proofs.References

/-!
Which references dangle after the examples were removed. Named examples are removed from the whole
document, their uses only where examples stand: a reference to one from another place is left.
-/
namespace ApiTidy
open Document Examples

theorem references_stripped_subset (named : Bool) (node : Node) :
    (stripped named node).references ⊆ node.references := by
  induction node using Node.induct generalizing named with
  | scalar value => simp
  | sequence items ih =>
    intro found h
    rw [stripped_sequence] at h
    obtain ⟨item, hitem, href⟩ := Node.mem_references_sequence.1 h
    obtain ⟨old, hold, rfl⟩ := List.mem_map.1 hitem
    exact Node.mem_references_sequence.2 ⟨old, hold, ih old hold false href⟩
  | mapping entries ih =>
    intro found h
    have hsame : Reference.ofNode? (stripped named (.mapping entries)) =
        Reference.ofNode? (.mapping entries) := by
      rw [Reference.ofNode?, refPointer?_stripped, Reference.ofNode?]
    rw [stripped_mapping] at h hsame
    rcases Node.mem_references_mapping.1 h with hown | ⟨entry, hmem, href⟩
    · exact Node.mem_references_mapping.2 (.inl (hsame ▸ hown))
    · obtain ⟨old, hold, rfl⟩ := List.mem_map.1 hmem
      have hentry := (List.mem_filter.1 hold).1
      exact Node.references_of_mem_subset hentry (ih old hentry _ href)

theorem references_strippedRegions_subset (root : Node) :
    (strippedRegions root).references ⊆ root.references := by
  unfold strippedRegions
  refine List.Subset.trans (Node.references_modifyField_subset (by decide) (fun region => ?_) _)
    (Node.references_modifyField_subset (by decide) (references_stripped_subset true) root)
  cases region with
  | scalar value => exact List.Subset.refl _
  | sequence items => exact List.Subset.refl _
  | mapping categories =>
    refine Node.references_mapValues_subset (fun value => ?_) (fun _ value => ?_) categories
    · cases value <;> simp [Node.string?]
    · exact references_stripped_subset true value

theorem references_resetExamples_subset (root : Node) :
    (resetExamples root).references ⊆ root.references := by
  refine Node.references_modifyField_subset (by decide) (fun region => ?_) root
  cases region with
  | scalar value => exact List.Subset.refl _
  | sequence items => exact List.Subset.refl _
  | mapping categories => exact Node.references_insert_subset (by decide) rfl categories

/-- Stripping leaves every component there, without its examples. -/
theorem target?_strippedRegions (root : Node) (reference : Reference) :
    target? ⟨strippedRegions root⟩ reference =
      (target? ⟨root⟩ reference).map (stripped false) := by
  have hne : componentsKey ≠ pathsKey := by decide
  simp only [target?, component?, components?_eq, strippedRegions, Node.field?_modifyField_self,
    Node.field?_modifyField_of_ne hne]
  cases root.field? componentsKey with
  | none => rfl
  | some region =>
    cases region with
    | scalar value => rfl
    | sequence items => rfl
    | mapping categories =>
      simp only [Option.map_some, Option.bind_some, Node.onEntries_mapping, Node.field?,
        Entries.get?_mapValues]
      cases Entries.get? categories reference.kind.key with
      | none => rfl
      | some category =>
        cases category with
        | scalar value => rfl
        | sequence items => rfl
        | mapping components =>
          rw [Option.map_some, Option.bind_some, stripped_mapping]
          simp [Node.entries?, isKept, namesBelow]

theorem target?_resetExamples (root : Node) (reference : Reference) :
    target? ⟨resetExamples root⟩ reference =
      if reference.kind = .examples then none else target? ⟨root⟩ reference := by
  unfold target? component?
  split
  next hkind =>
    rw [hkind, components?_eq, resetExamples, Node.field?_modifyField_self]
    cases root.field? componentsKey with
    | none => rfl
    | some region =>
      cases region with
      | scalar value => rfl
      | sequence items => rfl
      | mapping categories => simp [Node.field?, Node.entries?]
  next hkind => rw [components?_resetExamples hkind]

/-- Removing the examples succeeds and adds no reference. What dangles afterwards either did so
before or refers to a named example, and all such references that are left dangle. -/
theorem mem_danglingReferences_stripExamples (doc : Document) :
    ∃ count changed, Pass.stripExamples.apply doc = .ok count changed ∧
      changed.references ⊆ doc.references ∧
      ∀ reference, reference ∈ changed.danglingReferences ↔
        reference ∈ changed.references ∧
          (reference ∈ doc.danglingReferences ∨ reference.kind = .examples) := by
  obtain ⟨count, happly⟩ := removeExamples_eq_ok doc
  have hsubset : (resetExamples (strippedRegions doc.root)).references ⊆ doc.references :=
    List.Subset.trans (references_resetExamples_subset _) (references_strippedRegions_subset _)
  refine ⟨count, _, happly, hsubset, fun reference => ?_⟩
  rw [mem_danglingReferences, mem_danglingReferences, target?_resetExamples,
    target?_strippedRegions]
  constructor
  · rintro ⟨hmem, htarget⟩
    refine ⟨hmem, ?_⟩
    by_cases hkind : reference.kind = .examples
    · exact .inr hkind
    · rw [if_neg hkind, Option.map_eq_none_iff] at htarget
      exact .inl ⟨hsubset hmem, htarget⟩
  · rintro ⟨hmem, hcase⟩
    refine ⟨hmem, ?_⟩
    split
    next => rfl
    next hkind =>
      obtain ⟨-, hold⟩ := hcase.resolve_right hkind
      rw [Option.map_eq_none_iff]
      exact hold

/-- An example that is referred to from outside the paths and the components. -/
def farExample : Document :=
  ⟨.mapping [("x-a", (Reference.mk .examples "E").toNode),
    ("components", .mapping [("examples", .mapping [("E", .mapping [])])])]⟩

/-- Not every reference that dangles once the examples are removed dangled before. -/
theorem not_all_strippings_keep_targets :
    farExample.danglingReferences = [] ∧
      ∃ count changed, Pass.stripExamples.apply farExample = .ok count changed ∧
        changed.danglingReferences = [⟨.examples, "E"⟩] :=
  ⟨by decide, _, _, rfl, by decide⟩

end ApiTidy
