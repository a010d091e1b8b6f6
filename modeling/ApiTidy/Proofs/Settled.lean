import ApiTidy.Proofs.Pruning
import ApiTidy.Proofs.Trimming

/-!
What one pass has settled stays settled in the later ones. Most passes may change places; emptying
the named examples and dropping components cannot come before the markers, and are looked at apart.
-/
namespace ApiTidy
open Alternatives Nullable Examples Document
variable {marker : String}

/-- Examples go below the paths and below the categories of components. -/
def strippedRegions (root : Node) : Node :=
  (root.modifyField (stripped true) pathsKey).modifyField
    (Node.onEntries (Entries.mapValues fun _ => stripped true)) componentsKey

/-- The category of named examples is emptied, or comes empty. -/
def resetExamples (root : Node) : Node :=
  root.modifyField (Node.onEntries fun categories =>
    Entries.insert categories ComponentKind.examples.key (.mapping [])) componentsKey

theorem stripRegions_fst (root : Node) : (stripRegions root).1 = strippedRegions root := by
  simp only [stripRegions, Change.andThen_fst, Change.atField_fst, Change.inMapping_fst,
    Change.onValues_fst]
  rfl

theorem dedupeValue_modifyField {key : String} {f : Node → Node}
    (hcomm : ∀ value, dedupeValue key (f value) = f (dedupeValue key value)) (above : String)
    (node : Node) :
    dedupeValue above (node.modifyField f key) = (dedupeValue above node).modifyField f key := by
  cases node with
  | scalar value => rfl
  | sequence items => simp
  | mapping entries =>
    rw [Node.modifyField_mapping, dedupeValue_mapping, dedupeValue_mapping,
      Node.modifyField_mapping, Entries.mapValues_modify fun value _ => hcomm value]

theorem dedupeValue_onEntries {f : Entries Node → Entries Node}
    (hcomm : ∀ entries, Entries.mapValues dedupeValue (f entries) =
      f (Entries.mapValues dedupeValue entries)) (key : String) (node : Node) :
    dedupeValue key (node.onEntries f) = (dedupeValue key node).onEntries f := by
  cases node <;> simp [hcomm]

theorem stripped_onEntries {f : Entries Node → Entries Node}
    (hcomm : ∀ entries, Entries.mapValues (fun _ => stripped false) (f entries) =
      f (Entries.mapValues (fun _ => stripped false) entries)) (node : Node) :
    stripped true (node.onEntries f) = (stripped true node).onEntries f := by
  have hmapping : ∀ entries : Entries Node, stripped true (.mapping entries) =
      .mapping (Entries.mapValues (fun _ => stripped false) entries) :=
    fun entries => congrArg Node.mapping (stripValues_fst entries)
  cases node with
  | scalar value => simp
  | sequence items => simp
  | mapping entries =>
    rw [Node.onEntries_mapping, hmapping, hmapping, hcomm, Node.onEntries_mapping]

/-- A marker that is no key with a meaning of its own. -/
structure OwnKey (marker : String) : Prop where
  not_ref : marker ≠ Node.refKey
  not_paths : marker ≠ pathsKey
  not_components : marker ≠ componentsKey
  not_category : ∀ kind : ComponentKind, marker ≠ kind.key
  not_example : isExampleKey marker = false
  plain : MediaTypes.hasTypeParameters marker = false

theorem marked_onEntries {f g : Entries Node → Entries Node} {node : Node}
    (hcomm : ∀ entries, node = .mapping entries →
      complete marker (Entries.mapValues (fun _ => marked marker) (f entries)) =
        g (complete marker (Entries.mapValues (fun _ => marked marker) entries))) :
    marked marker (node.onEntries f) = (marked marker node).onEntries g := by
  cases node with
  | scalar value => rfl
  | sequence items => simp
  | mapping entries => simp [hcomm entries rfl]

theorem strippedRegions_strippedRegions (root : Node) :
    strippedRegions (strippedRegions root) = strippedRegions root := by
  have hne : componentsKey ≠ pathsKey := by decide
  unfold strippedRegions
  rw [Node.modifyField_comm hne, Node.modifyField_modifyField, Node.modifyField_modifyField]
  congr 1
  · funext node
    cases node with
    | scalar value => rfl
    | sequence items => rfl
    | mapping entries => simp [Entries.mapValues_mapValues, stripped_stripped]
  · congr 1
    funext node
    exact stripped_stripped true node

theorem dedupeValue_strippedRegions (key : String) (root : Node) :
    dedupeValue key (strippedRegions root) = strippedRegions (dedupeValue key root) := by
  unfold strippedRegions
  rw [dedupeValue_modifyField, dedupeValue_modifyField]
  · exact fun value => (stripped_dedupeValue true pathsKey value).symm
  · refine dedupeValue_onEntries (fun entries => ?_) componentsKey
    rw [Entries.mapValues_mapValues, Entries.mapValues_mapValues]
    exact Entries.mapValues_congr fun entry _ => (stripped_dedupeValue true entry.1 entry.2).symm

theorem marked_strippedRegions (h : OwnKey marker) (root : Node) :
    marked marker (strippedRegions root) = strippedRegions (marked marker root) := by
  unfold strippedRegions
  rw [marked_modifyField (by decide) h.not_components, marked_modifyField (by decide) h.not_paths]
  · exact fun value _ => (stripped_marked h.not_example true value).symm
  · refine fun value _ => marked_onEntries fun entries _ => ?_
    rw [← complete_mapValues fun _ => bool?_stripped true, Entries.mapValues_mapValues,
      Entries.mapValues_mapValues]
    exact congrArg _ (Entries.mapValues_congr fun entry _ =>
      (stripped_marked h.not_example true entry.2).symm)

/-- What every trimming keeps stays when examples are removed, region after region. -/
theorem of_strippedRegions {P : Document → Prop}
    (hP : ∀ old new : Document, Trimmed marker old.root new.root → P old → P new) {root : Node}
    (h : P ⟨root⟩) : P ⟨strippedRegions root⟩ := by
  refine hP ⟨root.modifyField (stripped true) pathsKey⟩ _ ?_ (hP ⟨root⟩ _ ?_ h)
  · exact .modifyField (.onEntries fun _ => trimmed_stripped marker true) componentsKey _
  · exact .modifyField (trimmed_stripped marker true) pathsKey root

theorem resetExamples_resetExamples (root : Node) :
    resetExamples (resetExamples root) = resetExamples root := by
  unfold resetExamples
  rw [Node.modifyField_modifyField]
  congr 1
  funext node
  cases node <;> simp [Entries.insert_insert]

theorem strippedRegions_resetExamples (root : Node) :
    strippedRegions (resetExamples root) = resetExamples (strippedRegions root) := by
  have hne : componentsKey ≠ pathsKey := by decide
  unfold strippedRegions resetExamples
  rw [Node.modifyField_comm hne, Node.modifyField_modifyField, Node.modifyField_modifyField]
  congr 1
  funext node
  cases node with
  | scalar value => rfl
  | sequence items => rfl
  | mapping entries => simp [Entries.mapValues_insert]

theorem dedupeValue_resetExamples (key : String) (root : Node) :
    dedupeValue key (resetExamples root) = resetExamples (dedupeValue key root) := by
  unfold resetExamples
  rw [dedupeValue_modifyField]
  exact dedupeValue_onEntries (fun entries => Entries.mapValues_insert (by simp) entries) _

theorem marked_resetExamples (h : OwnKey marker) {root : Node} (hroot : marked marker root = root) :
    marked marker (resetExamples root) = resetExamples root := by
  unfold resetExamples
  refine (marked_modifyField (by decide) h.not_components fun value hvalue => ?_).trans
    (congrArg _ hroot)
  have hsettled := marked_field? hroot hvalue
  rw [hsettled]
  cases value with
  | scalar value => rfl
  | sequence items => exact hsettled
  | mapping entries =>
    obtain ⟨hneeds, hvalues⟩ := marked_mapping_eq_self_iff.1 hsettled
    refine marked_mapping_eq_self_iff.2 ⟨?_, fun entry hmem => ?_⟩
    · rw [← hneeds]
      refine needsMarker_congr fun key hkey => ?_
      have hne : key ≠ ComponentKind.examples.key := by
        rcases hkey with rfl | rfl
        · decide
        · exact h.not_category .examples
      rw [Entries.get?_insert_of_ne hne]
    · rcases Entries.mem_insert hmem with rfl | hold
      · simp [complete, needsMarker]
      · exact hvalues entry hold

theorem components?_resetExamples {kind : ComponentKind} (h : kind ≠ .examples) (root : Node) :
    components? ⟨resetExamples root⟩ kind = components? ⟨root⟩ kind := by
  have hkey : kind.key ≠ ComponentKind.examples.key := fun e => h (ComponentKind.key_inj e)
  rw [components?_eq, components?_eq, resetExamples, Node.field?_modifyField_self]
  cases root.field? componentsKey with
  | none => rfl
  | some region =>
    cases region with
    | scalar value => rfl
    | sequence items => rfl
    | mapping entries => simp [Node.field?, Entries.get?_insert_of_ne hkey]

theorem bodies_resetExamples (root : Node) :
    Bodies.all ⟨resetExamples root⟩ = Bodies.all ⟨root⟩ := by
  have hpaths : Node.field? (resetExamples root) pathsKey = root.field? pathsKey :=
    Node.field?_modifyField_of_ne (by decide) _ root
  refine Bodies.all_congr hpaths ?_ ?_
  · exact components?_resetExamples (by decide) root
  · exact components?_resetExamples (by decide) root

theorem bodies_onCategories {listed : List ComponentKind} (hlisted : listed.Nodup)
    (hrequests : .requestBodies ∉ listed) (hresponses : .responses ∉ listed)
    (f : ComponentKind → Entries Node → Entries Node) (doc : Document) :
    Bodies.all (doc.onCategories listed f) = Bodies.all doc := by
  refine Bodies.all_congr (field?_onCategories (by decide) listed f doc) ?_ ?_
  · rw [components?_onCategories hlisted, if_neg hrequests]
  · rw [components?_onCategories hlisted, if_neg hresponses]

theorem dedupeValue_onCategory {f : Entries Node → Entries Node}
    (hcomm : ∀ entries, Entries.mapValues dedupeValue (f entries) =
      f (Entries.mapValues dedupeValue entries)) (key : String) (kind : ComponentKind)
    (doc : Document) :
    dedupeValue key (doc.onCategory kind f).root =
      (onCategory kind f ⟨dedupeValue key doc.root⟩).root := by
  unfold onCategory
  rw [dedupeValue_modifyField]
  intro value
  rw [dedupeValue_modifyField]
  exact dedupeValue_onEntries hcomm kind.key

theorem strippedRegions_onCategory {f : Entries Node → Entries Node}
    (hcomm : ∀ entries, Entries.mapValues (fun _ => stripped false) (f entries) =
      f (Entries.mapValues (fun _ => stripped false) entries)) (kind : ComponentKind)
    (doc : Document) :
    strippedRegions (doc.onCategory kind f).root =
      (onCategory kind f ⟨strippedRegions doc.root⟩).root := by
  have hne : componentsKey ≠ pathsKey := by decide
  unfold strippedRegions onCategory
  rw [Node.modifyField_comm hne, Node.modifyField_modifyField, Node.modifyField_modifyField]
  congr 1
  funext node
  cases node with
  | scalar value => rfl
  | sequence items => rfl
  | mapping entries =>
    exact congrArg Node.mapping
      (Entries.mapValues_modify fun value _ => stripped_onEntries hcomm value)

theorem resetExamples_onCategory {kind : ComponentKind} (h : kind ≠ .examples)
    (f : Entries Node → Entries Node) (doc : Document) :
    resetExamples (doc.onCategory kind f).root =
      (onCategory kind f ⟨resetExamples doc.root⟩).root := by
  have hkey : kind.key ≠ ComponentKind.examples.key := fun e => h (ComponentKind.key_inj e)
  unfold resetExamples onCategory
  rw [Node.modifyField_modifyField, Node.modifyField_modifyField]
  congr 1
  funext node
  cases node with
  | scalar value => rfl
  | sequence items => rfl
  | mapping entries => simp [Entries.modify_insert_of_ne hkey]

/-- Marking a document whose category was changed, if the category was settled before. -/
theorem marked_onCategory (h : OwnKey marker) {kind : ComponentKind} {doc : Document}
    (hsettled : ∀ entries, doc.components? kind = some entries →
      marked marker (.mapping entries) = .mapping entries) (f : Entries Node → Entries Node) :
    marked marker (doc.onCategory kind f).root =
      (onCategory kind (fun entries => complete marker
          (Entries.mapValues (fun _ => marked marker) (f entries)))
        ⟨marked marker doc.root⟩).root := by
  have hnullable : "nullable" ≠ kind.key := by cases kind <;> decide
  unfold onCategory
  refine marked_modifyField (by decide) h.not_components fun region hregion => ?_
  refine marked_modifyField hnullable (h.not_category kind) fun category hcategory => ?_
  refine marked_onEntries fun entries hentries => ?_
  subst hentries
  have hold := hsettled entries (by rw [components?_eq, hregion]; simp [hcategory, Node.entries?])
  rw [marked_mapping] at hold
  rw [Node.mapping.inj hold]

variable {kinds : List ComponentKind} {doc : Document}

theorem dedupeValue_sweep {key : String} (h : dedupeValue key doc.root = doc.root)
    (kinds : List ComponentKind) :
    dedupeValue key (doc.sweep kinds).root = (doc.sweep kinds).root := by
  refine (root_onCategories (ComponentKind.nodup_normalize kinds) fun kind _ start _ =>
    dedupeValue_onCategory (fun entries => ?_) key kind start).trans (by rw [h]; rfl)
  exact (Entries.filter_mapValues (fun name => Live doc kinds ⟨kind, name⟩) _ entries).symm

theorem strippedRegions_sweep (h : strippedRegions doc.root = doc.root)
    (kinds : List ComponentKind) :
    strippedRegions (doc.sweep kinds).root = (doc.sweep kinds).root := by
  refine (root_onCategories (ComponentKind.nodup_normalize kinds) fun kind _ start _ =>
    strippedRegions_onCategory (fun entries => ?_) kind start).trans (by rw [h]; rfl)
  exact (Entries.filter_mapValues (fun name => Live doc kinds ⟨kind, name⟩) _ entries).symm

theorem resetExamples_onCategories (hkinds : .examples ∉ kinds)
    (h : resetExamples doc.root = doc.root) (f : ComponentKind → Entries Node → Entries Node) :
    resetExamples (doc.onCategories (ComponentKind.normalize kinds) f).root =
      (doc.onCategories (ComponentKind.normalize kinds) f).root := by
  refine (root_onCategories (ComponentKind.nodup_normalize kinds) fun kind hkind start _ =>
    resetExamples_onCategory ?_ (f kind) start).trans (by rw [h])
  rintro rfl
  exact hkinds (ComponentKind.mem_normalize.1 hkind)

/-- The live components of a category with the marker that they ask for. -/
def markLive (marker : String) (doc : Document) (kinds : List ComponentKind)
    (kind : ComponentKind) (entries : Entries Node) : Entries Node :=
  complete marker (Entries.mapValues (fun _ => marked marker)
    (entries.filter fun entry => Live doc kinds ⟨kind, entry.1⟩))

theorem marked_components (h : marked marker doc.root = doc.root) {kind : ComponentKind}
    {entries : Entries Node} (hentries : doc.components? kind = some entries) :
    marked marker (.mapping entries) = .mapping entries := by
  obtain ⟨categories, hregion, hcategory⟩ := components?_eq_some.1 hentries
  exact marked_field? (marked_field? h hregion) hcategory

theorem marked_sweep (hmarker : OwnKey marker) (h : marked marker doc.root = doc.root)
    (kinds : List ComponentKind) :
    marked marker (doc.sweep kinds).root =
      (doc.onCategories (ComponentKind.normalize kinds) (markLive marker doc kinds)).root := by
  refine (root_onCategories (ComponentKind.nodup_normalize kinds) fun kind _ start hstart =>
    marked_onCategory hmarker (fun entries hentries => ?_) _).trans (by rw [h]; rfl)
  exact marked_components h (hstart ▸ hentries)

/-- Pruning again takes out what marking put among the components that were left. -/
theorem sweep_marked_sweep (hmarker : OwnKey marker) (h : marked marker doc.root = doc.root)
    (kinds : List ComponentKind) :
    sweep ⟨marked marker (doc.sweep kinds).root⟩ kinds = doc.sweep kinds := by
  have hkeeps : KeepsLive doc kinds (markLive marker doc kinds) := fun kind _ entries hentries =>
    filter_complete_filter (marked_components h hentries) fun name => Live doc kinds ⟨kind, name⟩
  rw [marked_sweep hmarker h]
  exact hkeeps.sweep

theorem sweep_sweep (doc : Document) (kinds : List ComponentKind) :
    (doc.sweep kinds).sweep kinds = doc.sweep kinds :=
  (keepsLive_filter doc kinds).sweep

end ApiTidy
