import ApiTidy.Proofs.Pipeline

/-!
Which regions of a document a pass may change. What lies outside of some keys is told by the tree
with null in their places: if that stays the same, then every other key keeps its value, and all
keys keep their order.
-/
namespace ApiTidy
namespace Node
variable {hidden : List String} {key : String}

/-- A node with null in place of what stands under some keys. -/
def mask (hidden : List String) : Node → Node :=
  onEntries (Entries.mapValues fun key value => if key ∈ hidden then null else value)

theorem mask_modifyField (hkey : key ∈ hidden) (f : Node → Node) (node : Node) :
    (node.modifyField f key).mask hidden = node.mask hidden := by
  cases node with
  | scalar value => rfl
  | sequence items => rfl
  | mapping entries =>
    refine congrArg Node.mapping ?_
    induction entries with
    | nil => rfl
    | cons entry rest ih =>
      by_cases hk : entry.1 = key <;> simp_all [Entries.modify, Entries.mapValues]

/-- Masking more keys hides what masking fewer of them has hidden. -/
theorem mask_mask {few : List String} (h : few ⊆ hidden) (node : Node) :
    (node.mask few).mask hidden = node.mask hidden := by
  cases node with
  | scalar value => rfl
  | sequence items => rfl
  | mapping entries =>
    refine congrArg Node.mapping ?_
    rw [Entries.mapValues_mapValues]
    refine Entries.mapValues_congr fun entry _ => ?_
    by_cases hfew : entry.1 ∈ few
    · simp [h hfew]
    · simp [hfew]

theorem mask_mono {few : List String} (h : few ⊆ hidden) {changed node : Node}
    (heq : changed.mask few = node.mask few) : changed.mask hidden = node.mask hidden := by
  rw [← mask_mask h, heq, mask_mask h]

/-- The keys of a mapping, in order; other nodes have none. -/
def keys (node : Node) : List String := Entries.keys (node.entries?.getD [])

theorem keys_onEntries_mapValues (f : String → Node → Node) (node : Node) :
    (node.onEntries (Entries.mapValues f)).keys = node.keys := by
  cases node with
  | scalar value => rfl
  | sequence items => rfl
  | mapping entries => simp [keys, entries?, Entries.keys, Entries.mapValues]

theorem keys_stripped_true (node : Node) : (Examples.stripped true node).keys = node.keys := by
  cases node with
  | scalar value => simp
  | sequence items => simp [keys, entries?]
  | mapping entries =>
    have hall : (entries.filter fun entry => Examples.isKept true entry.1) = entries :=
      List.filter_eq_self.2 fun _ _ => rfl
    rw [Examples.stripped_mapping, hall]
    exact keys_onEntries_mapValues _ (.mapping entries)

end Node

namespace Document
variable {hidden : List String}

theorem routes_eq (doc : Document) :
    doc.routes = ((doc.root.field? pathsKey).map Node.keys).getD [] := by
  unfold routes paths region?
  cases doc.root.field? pathsKey <;> rfl

theorem routes_modifyField_paths {f : Node → Node} (hf : ∀ node, (f node).keys = node.keys)
    (root : Node) : routes ⟨root.modifyField f pathsKey⟩ = routes ⟨root⟩ := by
  rw [routes_eq, routes_eq, Node.field?_modifyField_self]
  cases root.field? pathsKey with
  | none => rfl
  | some paths => exact hf paths

theorem routes_modifyField_components (f : Node → Node) (root : Node) :
    routes ⟨root.modifyField f componentsKey⟩ = routes ⟨root⟩ := by
  have hne : pathsKey ≠ componentsKey := by decide
  rw [routes_eq, routes_eq, Node.field?_modifyField_of_ne hne]

theorem routes_onCategories (listed : List ComponentKind)
    (f : ComponentKind → Entries Node → Entries Node) (doc : Document) :
    (doc.onCategories listed f).routes = doc.routes := by
  have hne : pathsKey ≠ componentsKey := by decide
  rw [routes_eq, routes_eq, field?_onCategories hne]

theorem mask_onCategories (hregion : componentsKey ∈ hidden) (listed : List ComponentKind)
    (f : ComponentKind → Entries Node → Entries Node) (doc : Document) :
    (doc.onCategories listed f).root.mask hidden = doc.root.mask hidden := by
  induction listed generalizing doc with
  | nil => rfl
  | cons first rest ih =>
    exact (ih (doc.onCategory first (f first))).trans (Node.mask_modifyField hregion _ _)

/-- Among the components, a change of several categories changes nothing but them. -/
theorem mask_components_onCategories {listed : List ComponentKind} {categories : List String}
    (hlisted : ∀ kind ∈ listed, kind.key ∈ categories)
    (f : ComponentKind → Entries Node → Entries Node) (doc : Document) :
    ((doc.onCategories listed f).root.field? componentsKey).map (Node.mask categories) =
      (doc.root.field? componentsKey).map (Node.mask categories) := by
  induction listed generalizing doc with
  | nil => rfl
  | cons first rest ih =>
    obtain ⟨hfirst, hrest⟩ := List.forall_mem_cons.1 hlisted
    refine (ih hrest (doc.onCategory first (f first))).trans ?_
    rw [onCategory, Node.field?_modifyField_self, Option.map_map]
    congr 1
    funext node
    exact Node.mask_modifyField hfirst _ node

end Document

open Document
variable {hidden : List String}

/-- Moving routes changes the paths only, also up to where it fails. -/
theorem Relocation.keeps_mask_applyAll (hpaths : pathsKey ∈ hidden)
    (relocations : List Relocation) :
    (Relocation.applyAll relocations).Keeps fun doc => doc.root.mask hidden := by
  have hfield := Node.mask_modifyField hpaths
  refine Edit.Keeps.bind (Edit.Keeps.forM fun listed _ => ?_) fun _ => Edit.keeps_pure _
  refine (keeps_onRoot (keeps_inField hfield (Edit.keeps_throw _))).bind fun _ => ?_
  exact (keeps_onRoot (keeps_inField hfield (Edit.keeps_throw _))).bind fun _ => Edit.keeps_pure _

theorem Bodies.mask_onAll (hpaths : pathsKey ∈ hidden) (hcomponents : componentsKey ∈ hidden)
    (change : Bodies.Kind → Change Node) (node : Node) :
    (Bodies.onAll change node).1.mask hidden = node.mask hidden := by
  simp only [Bodies.onAll, Bodies.onOperations, Bodies.onCategory, Change.andThen_fst,
    Change.atField_fst, Node.mask_modifyField hpaths, Node.mask_modifyField hcomponents]

theorem Bodies.routes_onAll (change : Bodies.Kind → Change Node) (node : Node) :
    routes ⟨(Bodies.onAll change node).1⟩ = routes ⟨node⟩ := by
  simp only [Bodies.onAll, Bodies.onOperations, Bodies.onCategory, Change.andThen_fst,
    Change.atField_fst, routes_modifyField_components, Change.inMapping_fst, Change.onValues_fst]
  exact routes_modifyField_paths (Node.keys_onEntries_mapValues _) node

namespace Pass

/-- The passes that know which regions of a document they look at. -/
def regional : List PassName :=
  [.stripParameters, .simplifyContentTypes, .backfillResponses, .relocatePaths, .stripExamples,
    .pruneUnreachable]

/-- The top-level keys below which such a pass may change something. -/
def regions : Pass → List String
  | stripParameters _ | relocatePaths _ => [pathsKey]
  | pruneUnreachable _ => [componentsKey]
  | _ => [pathsKey, componentsKey]

theorem keeps_mask_apply {pass : Pass} (h : pass.name ∈ regional) :
    pass.apply.Keeps fun doc => doc.root.mask pass.regions := by
  cases pass with
  | stripParameters matchers =>
    intro doc
    show ((Parameters.strip matchers doc.root).1).mask [pathsKey] = _
    rw [Parameters.strip, Change.atField_fst]
    exact Node.mask_modifyField (by decide) _ _
  | simplifyContentTypes =>
    exact fun doc => Bodies.mask_onAll (by simp [regions]) (by simp [regions]) _ doc.root
  | backfillResponses defaults =>
    exact fun doc => Bodies.mask_onAll (by simp [regions]) (by simp [regions]) _ doc.root
  | relocatePaths relocations =>
    exact (Relocation.keeps_mask_applyAll (by simp [regions]) relocations).mapError _
  | stripExamples =>
    intro doc
    show (removeExamples.after doc).root.mask _ = _
    rw [Edit.after_of_eq_ok (removeExamples_eq doc)]
    simp only [resetExamples, strippedRegions, regions]
    rw [Node.mask_modifyField (by decide), Node.mask_modifyField (by decide),
      Node.mask_modifyField (by decide)]
  | pruneUnreachable kinds =>
    intro doc
    rw [Edit.after_of_eq_ok (apply_pruneUnreachable kinds doc)]
    exact mask_onCategories (by simp [regions]) _ _ doc
  | _ => simp [name, regional] at h

theorem keeps_routes_apply {pass : Pass} (h : pass.name ∈ regional)
    (hmoves : pass.name ≠ .relocatePaths) : pass.apply.Keeps routes := by
  cases pass with
  | stripParameters matchers =>
    intro doc
    show routes ⟨(Parameters.strip matchers doc.root).1⟩ = _
    simp only [Parameters.strip, Change.atField_fst, Change.inMapping_fst, Change.onValues_fst]
    exact routes_modifyField_paths (Node.keys_onEntries_mapValues _) doc.root
  | simplifyContentTypes => exact fun doc => Bodies.routes_onAll _ doc.root
  | backfillResponses defaults => exact fun doc => Bodies.routes_onAll _ doc.root
  | relocatePaths relocations => exact absurd rfl hmoves
  | stripExamples =>
    intro doc
    show (removeExamples.after doc).routes = _
    rw [Edit.after_of_eq_ok (removeExamples_eq doc)]
    simp only [resetExamples, strippedRegions, routes_modifyField_components]
    exact routes_modifyField_paths Node.keys_stripped_true doc.root
  | pruneUnreachable kinds =>
    intro doc
    rw [Edit.after_of_eq_ok (apply_pruneUnreachable kinds doc)]
    exact routes_onCategories _ _ doc
  | _ => simp [name, regional] at h

/-- Six of the passes stay in their regions, also when they fail: outside of `paths` and
`components` nothing changes, the passes of parameters and of routes keep to `paths`, pruning keeps
to the categories it was given, and only moving routes changes which routes there are. -/
theorem stays_in_regions {pass : Pass}
    (h : pass.name ∈ [.stripParameters, .simplifyContentTypes, .backfillResponses, .relocatePaths,
      .stripExamples, .pruneUnreachable]) (doc : Document) :
    (pass.apply.after doc).root.mask [pathsKey, componentsKey] =
        doc.root.mask [pathsKey, componentsKey] ∧
      (pass.name = .stripParameters ∨ pass.name = .relocatePaths →
        (pass.apply.after doc).root.mask [pathsKey] = doc.root.mask [pathsKey]) ∧
      (∀ kinds, pass = .pruneUnreachable kinds →
        (pass.apply.after doc).root.mask [componentsKey] = doc.root.mask [componentsKey] ∧
        ((pass.apply.after doc).root.field? componentsKey).map
            (Node.mask (kinds.map ComponentKind.key)) =
          (doc.root.field? componentsKey).map (Node.mask (kinds.map ComponentKind.key))) ∧
      (pass.name ≠ .relocatePaths → (pass.apply.after doc).routes = doc.routes) := by
  have hregions := keeps_mask_apply h doc
  have hwithin : pass.regions ⊆ [pathsKey, componentsKey] := by
    cases pass <;> simp [regions]
  refine ⟨Node.mask_mono hwithin hregions, ?_, ?_, fun hmoves => keeps_routes_apply h hmoves doc⟩
  · intro hname
    have hpaths : pass.regions = [pathsKey] := by
      cases pass <;> simp [name, regions] at hname ⊢
    rwa [hpaths] at hregions
  · rintro kinds rfl
    refine ⟨hregions, ?_⟩
    rw [Edit.after_of_eq_ok (apply_pruneUnreachable kinds doc)]
    refine mask_components_onCategories (fun kind hkind => ?_) _ doc
    exact List.mem_map_of_mem (ComponentKind.mem_normalize.1 hkind)

/-- A move of two routes that does not find the second one has moved the first. -/
def movingTwice : Pass := relocatePaths [⟨"/v1", ["/a", "/b"], .null⟩]

def withOneRoute : Document :=
  ⟨.mapping [("openapi", .scalar (.string "3.1.0")), ("paths", .mapping [("/a", .mapping [])])]⟩

theorem stays_in_regions_half_moved :
    movingTwice.apply withOneRoute = .error (.address (.missing "paths./b"))
        ⟨.mapping [("openapi", .scalar (.string "3.1.0")),
          ("paths", .mapping [("/v1/a", .mapping [])])]⟩ ∧
      movingTwice.name = .relocatePaths ∧
      (movingTwice.apply.after withOneRoute).root.mask [pathsKey] =
        withOneRoute.root.mask [pathsKey] :=
  ⟨by rfl, rfl, (stays_in_regions (by decide) withOneRoute).2.1 (.inr rfl)⟩

end Pass
end ApiTidy
