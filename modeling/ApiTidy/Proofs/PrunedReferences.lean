import ApiTidy.Proofs.Pruning
import ApiTidy.Proofs.References

/-!
Which references dangle after a pruning. The search for what is in use starts below the top-level
keys and below the categories; the report of dangling references starts at the root. So a mapping
that holds these may itself be a reference that only the report sees, and its component is removed.
-/
namespace ApiTidy.Document
variable {doc : Document} {kinds : List ComponentKind} {reference : Reference}

/-- The references of the document that the search passes over: the root, `components` and the given
categories may be references themselves, or hold some without being mappings. -/
def passedOver (doc : Document) (kinds : List ComponentKind) : List Reference :=
  doc.root.ownReferences ++ (doc.root.field? componentsKey).toList.flatMap fun region =>
    region.ownReferences ++
      ((region.entries?.getD []).filter fun entry => isGiven kinds entry.1).flatMap
        fun entry => entry.2.ownReferences

theorem mem_passedOver_of_field? {region : Node}
    (hregion : doc.root.field? componentsKey = some region)
    (h : reference ∈ region.ownReferences) : reference ∈ doc.passedOver kinds := by
  refine List.mem_append_right _ (List.mem_flatMap.2 ⟨region, ?_, List.mem_append_left _ h⟩)
  simp [hregion]

theorem mem_passedOver_of_category {categories : Entries Node} {entry : String × Node}
    (hregion : doc.root.field? componentsKey = some (.mapping categories))
    (hentry : entry ∈ categories) (hgiven : isGiven kinds entry.1 = true)
    (h : reference ∈ entry.2.ownReferences) : reference ∈ doc.passedOver kinds := by
  refine List.mem_append_right _ (List.mem_flatMap.2 ⟨.mapping categories, by simp [hregion], ?_⟩)
  refine List.mem_append_right _ (List.mem_flatMap.2 ⟨entry, ?_, h⟩)
  exact List.mem_filter.2 ⟨hentry, hgiven⟩

theorem passedOver_subset (doc : Document) (kinds : List ComponentKind) :
    doc.passedOver kinds ⊆ doc.references := by
  intro found h
  rcases List.mem_append.1 h with hroot | hbelow
  · exact Node.ownReferences_subset doc.root hroot
  · obtain ⟨region, hregion, hfound⟩ := List.mem_flatMap.1 hbelow
    have hfield : doc.root.field? componentsKey = some region := Option.mem_toList.1 hregion
    refine Node.references_of_field?_subset hfield ?_
    rcases List.mem_append.1 hfound with hown | hcategory
    · exact Node.ownReferences_subset region hown
    · obtain ⟨entry, hentry, hown⟩ := List.mem_flatMap.1 hcategory
      have hmem := (List.mem_filter.1 hentry).1
      cases region with
      | scalar value => simp [Node.entries?] at hmem
      | sequence items => simp [Node.entries?] at hmem
      | mapping categories =>
        exact Node.references_of_mem_subset hmem (Node.ownReferences_subset entry.2 hown)

/-- A reference is passed over, or the search starts with it, or a component holds it. -/
theorem references_cases (hdoc : doc.root.WellFormed) (kinds : List ComponentKind)
    (h : reference ∈ doc.references) :
    reference ∈ doc.passedOver kinds ∨ reference ∈ doc.rootReferences kinds ∨
      ∃ source ∈ doc.componentsOf kinds, reference ∈ doc.targetReferences source := by
  rcases Node.mem_references_iff.1 h with hown | ⟨entries, hroot, ⟨key, region⟩, hmem, href⟩
  · exact .inl (List.mem_append_left _ hown)
  by_cases hkey : key = componentsKey
  case neg =>
    refine .inr (.inl (List.mem_append_left _ ?_))
    refine List.mem_flatMap.2 ⟨(key, region), List.mem_filter.2 ⟨?_, by simpa using hkey⟩, href⟩
    simpa [hroot, Node.entries?] using hmem
  subst hkey
  have hregion : doc.root.field? componentsKey = some region := by
    rw [hroot] at hdoc ⊢
    exact Entries.get?_of_mem (Node.wellFormed_mapping.1 hdoc).1 hmem
  rcases Node.mem_references_iff.1 href with hown | ⟨categories, rfl, ⟨name, category⟩, hcat, hin⟩
  · exact .inl (mem_passedOver_of_field? hregion hown)
  by_cases hgiven : isGiven kinds name = true
  case neg =>
    refine .inr (.inl (List.mem_append_right _ ?_))
    refine List.mem_flatMap.2 ⟨(name, category), List.mem_filter.2 ⟨?_, by simpa using hgiven⟩, hin⟩
    simpa [region?, hregion, Node.entries?] using hcat
  rcases Node.mem_references_iff.1 hin with hown | ⟨entries, rfl, ⟨target, component⟩, hcomp, hlast⟩
  · exact .inl (mem_passedOver_of_category hregion hcat hgiven hown)
  · -- the entry of a given category is what a reference to it finds
    obtain ⟨kind, hkind, rfl⟩ := isGiven_iff.1 hgiven
    have hregionWell := hdoc.field? hregion
    have hcategory : Node.field? (.mapping categories) kind.key = some (.mapping entries) :=
      Entries.get?_of_mem (Node.wellFormed_mapping.1 hregionWell).1 hcat
    have hcomponents : doc.components? kind = some entries :=
      components?_eq_some.2 ⟨categories, hregion, hcategory⟩
    have htarget : doc.target? ⟨kind, target⟩ = some component := by
      rw [target?, component?, hcomponents]
      exact Entries.get?_of_mem (distinct_components hdoc hcomponents) hcomp
    refine .inr (.inr ⟨⟨kind, target⟩, mem_componentsOf.2 ⟨hkind, by simp [htarget]⟩, ?_⟩)
    exact mem_targetReferences.2 ⟨component, htarget, hlast⟩

theorem wellFormed_onCategories {f : ComponentKind → Entries Node → Entries Node}
    (hf : ∀ kind entries, (Node.mapping entries).WellFormed →
      (Node.mapping (f kind entries)).WellFormed)
    (listed : List ComponentKind) (hdoc : doc.root.WellFormed) :
    (doc.onCategories listed f).root.WellFormed := by
  induction listed generalizing doc with
  | nil => exact hdoc
  | cons first rest ih =>
    apply ih
    refine hdoc.modifyField (fun region hregion => hregion.modifyField (fun category hc => ?_) _) _
    cases category with
    | scalar value => exact hc
    | sequence items => exact hc
    | mapping entries => exact hf first entries hc

theorem references_onCategories_subset {f : ComponentKind → Entries Node → Entries Node}
    (hf : ∀ kind entries,
      (Node.mapping (f kind entries)).references ⊆ (Node.mapping entries).references)
    (listed : List ComponentKind) (doc : Document) :
    (doc.onCategories listed f).references ⊆ doc.references := by
  induction listed generalizing doc with
  | nil => exact List.Subset.refl _
  | cons first rest ih =>
    refine List.Subset.trans (ih (doc.onCategory first (f first))) ?_
    have hkey : Node.refKey ≠ first.key := by cases first <;> decide
    refine Node.references_modifyField_subset (by decide) (fun region => ?_) doc.root
    refine Node.references_modifyField_subset hkey (fun category => ?_) region
    cases category with
    | scalar value => exact List.Subset.refl _
    | sequence items => exact List.Subset.refl _
    | mapping entries => exact hf first entries

theorem wellFormed_sweep (hdoc : doc.root.WellFormed) (kinds : List ComponentKind) :
    (doc.sweep kinds).root.WellFormed :=
  wellFormed_onCategories (fun _ _ hentries => hentries.filter _) _ hdoc

theorem references_sweep_subset (doc : Document) (kinds : List ComponentKind) :
    (doc.sweep kinds).references ⊆ doc.references :=
  references_onCategories_subset
    (fun kind => Node.references_filter_subset fun name => Live doc kinds ⟨kind, name⟩) _ doc

theorem target?_sweep_of_notMem (h : reference.kind ∉ kinds) :
    (doc.sweep kinds).target? reference = doc.target? reference := by
  have hlisted : reference.kind ∉ ComponentKind.normalize kinds :=
    fun hmem => h (ComponentKind.mem_normalize.1 hmem)
  unfold sweep target? component?
  rw [components?_onCategories (ComponentKind.nodup_normalize kinds), if_neg hlisted]

theorem target?_sweep_of_none (h : doc.target? reference = none) :
    (doc.sweep kinds).target? reference = none := by
  by_cases hkind : reference.kind ∈ kinds
  · rw [target?_sweep hkind, h, ite_self]
  · rw [target?_sweep_of_notMem hkind, h]

/-- What the swept document refers to, by a reference that the search sees, is live. -/
theorem live_of_mem_references_sweep (hdoc : doc.root.WellFormed) (hkind : reference.kind ∈ kinds)
    (h : reference ∈ (doc.sweep kinds).references)
    (hseen : reference ∉ (doc.sweep kinds).passedOver kinds) : Live doc kinds reference := by
  rcases references_cases (wellFormed_sweep hdoc kinds) kinds h with
    hpassed | hroot | ⟨source, hsource, href⟩
  · exact absurd hpassed hseen
  · unfold sweep at hroot
    rw [rootReferences_onCategories fun _ => ComponentKind.mem_normalize.1] at hroot
    exact live_of_mem_rootReferences hroot hkind
  · obtain ⟨hsourceKind, hleft⟩ := mem_componentsOf.1 hsource
    obtain ⟨component, htarget, hin⟩ := mem_targetReferences.1 href
    rw [target?_sweep hsourceKind] at htarget
    split at htarget
    next hlive => exact .step hlive htarget hin hkind
    next => simp at htarget

/-- A reference dangles after a pruning exactly if it is still there and dangled before, or the
search passes over it and its component was removed. -/
theorem mem_danglingReferences_prune (hdoc : doc.root.WellFormed) (kinds : List ComponentKind)
    (reference : Reference) :
    reference ∈ (prune kinds doc).2.danglingReferences ↔
      reference ∈ (prune kinds doc).2.references ∧ reference ∈ doc.danglingReferences ∨
        reference ∈ (prune kinds doc).2.passedOver kinds ∧
          reference ∈ (prune kinds doc).1.removed := by
  rw [prune_eq, unreachable_eq, mem_danglingReferences, mem_danglingReferences, List.mem_filter,
    mem_componentsOf, decide_eq_true_eq]
  constructor
  · rintro ⟨hmem, htarget⟩
    cases hold : doc.target? reference with
    | none => exact .inl ⟨hmem, doc.references_sweep_subset kinds hmem, rfl⟩
    | some component =>
      have hkind : reference.kind ∈ kinds := by
        by_contra hkind
        rw [target?_sweep_of_notMem hkind, hold] at htarget
        simp at htarget
      have hdead : ¬ Live doc kinds reference := by
        intro hlive
        rw [target?_sweep hkind, if_pos hlive, hold] at htarget
        simp at htarget
      refine .inr ⟨?_, ⟨hkind, rfl⟩, hdead⟩
      by_contra hseen
      exact hdead (live_of_mem_references_sweep hdoc hkind hmem hseen)
  · rintro (⟨hmem, -, hold⟩ | ⟨hpassed, ⟨hkind, -⟩, hdead⟩)
    · exact ⟨hmem, target?_sweep_of_none hold⟩
    · exact ⟨passedOver_subset _ kinds hpassed, by rw [target?_sweep hkind, if_neg hdead]⟩

/-- A document that is a reference to one of its own schemas, with a path that refers to none. -/
def selfReferring : Document :=
  ⟨.mapping [("$ref", .ofString "#/components/schemas/X"),
    ("paths", .mapping [("/a", (Reference.mk .schemas "gone").toNode)]),
    ("components", .mapping [("schemas", .mapping [("X", .mapping [])])])]⟩

theorem mem_danglingReferences_prune_selfReferring :
    selfReferring.root.WellFormed ∧ ⟨.schemas, "gone"⟩ ∈ selfReferring.danglingReferences ∧
      (prune [.schemas] selfReferring).1.removed = [⟨.schemas, "X"⟩] ∧
      (prune [.schemas] selfReferring).2.passedOver [.schemas] = [⟨.schemas, "X"⟩] ∧
      ⟨.schemas, "gone"⟩ ∈ (prune [.schemas] selfReferring).2.danglingReferences ∧
      ⟨.schemas, "X"⟩ ∈ (prune [.schemas] selfReferring).2.danglingReferences := by
  have hwell : selfReferring.root.WellFormed := by
    simp [selfReferring, Reference.toNode, Node.WellFormed, Node.WellFormedEntries,
      Entries.Distinct, Entries.keys, Node.ofString]
  have hdangles := mem_danglingReferences_prune hwell [.schemas]
  have hbefore : ⟨.schemas, "gone"⟩ ∈ selfReferring.danglingReferences := by decide
  refine ⟨hwell, hbefore, by decide, by decide, ?_, ?_⟩
  · exact (hdangles _).2 (.inl ⟨by decide, hbefore⟩)
  · exact (hdangles _).2 (.inr ⟨by decide, by decide⟩)

/-- Not every reference that dangles after a pruning dangled before. -/
theorem not_all_prunings_keep_targets :
    ⟨.schemas, "X"⟩ ∈ (prune [.schemas] selfReferring).2.danglingReferences ∧
      ⟨.schemas, "X"⟩ ∉ selfReferring.danglingReferences := by
  decide

end ApiTidy.Document
