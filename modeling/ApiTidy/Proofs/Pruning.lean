import Mathlib.Data.List.Nodup
import ApiTidy.Proofs.Reachability

/-!
Pruning takes out the components that are not live and nothing else. What is live in the pruned
document is what was live before, so the second search finds nothing to remove.
-/
namespace ApiTidy.Document
variable {doc : Document} {kinds : List ComponentKind}

theorem unreachable_eq (doc : Document) (kinds : List ComponentKind) :
    doc.unreachable kinds =
      (doc.componentsOf kinds).filter fun reference => ¬ Live doc kinds reference := by
  refine List.filter_congr fun reference _ => ?_
  by_cases h : Live doc kinds reference
  · simp [h, mem_reachable_iff.2 h]
  · have hnew : reference ∉ doc.reachable kinds := fun hmem => h (mem_reachable_iff.1 hmem)
    simp [h, hnew]

/-- Taking components of one category out, one by one. -/
theorem foldl_without_category (kind : ComponentKind) (names : List String) (doc : Document) :
    (names.map fun name => Reference.mk kind name).foldl without doc =
      doc.onCategory kind fun entries => names.foldl Entries.erase entries := by
  induction names generalizing doc with
  | nil => exact (onCategory_id kind doc).symm
  | cons name rest ih =>
    rw [List.map_cons, List.foldl_cons, ih, without_eq_onCategory, onCategory_onCategory]
    rfl

/-- Taking components out one by one, category after category. -/
theorem foldl_without_categories {listed : List ComponentKind} (hlisted : listed.Nodup)
    (p : Reference → Bool) {start : Document}
    (hstart : ∀ kind ∈ listed, start.components? kind = doc.components? kind) :
    ((listed.flatMap fun kind => (doc.componentNames kind).map fun name =>
        Reference.mk kind name).filter p).foldl without start =
      start.onCategories listed fun kind entries => entries.filter (!p ⟨kind, ·.1⟩) := by
  induction listed generalizing start with
  | nil => rfl
  | cons first rest ih =>
    obtain ⟨hfirst, hrest⟩ := List.nodup_cons.1 hlisted
    have hhead : (((doc.componentNames first).map fun name => Reference.mk first name).filter
        p).foldl without start =
          start.onCategory first fun entries => entries.filter (!p ⟨first, ·.1⟩) := by
      rw [List.filter_map, foldl_without_category]
      refine onCategory_congr fun entries hentries => ?_
      have hnames : doc.componentNames first = Entries.keys entries := by
        rw [componentNames, ← hstart first List.mem_cons_self, hentries]
        rfl
      rw [hnames]
      exact Entries.foldl_erase_keys (p ⟨first, ·⟩) entries
    rw [List.flatMap_cons, List.filter_append, List.foldl_append, hhead, ih hrest]
    · rfl
    · intro kind hkind
      have hne : kind ≠ first := fun e => hfirst (e ▸ hkind)
      rw [components?_onCategory_of_ne hne, hstart kind (List.mem_cons_of_mem _ hkind)]

/-- The document without the components of the given kinds that are not live. -/
def sweep (doc : Document) (kinds : List ComponentKind) : Document :=
  doc.onCategories (ComponentKind.normalize kinds) fun kind entries =>
    entries.filter fun entry => Live doc kinds ⟨kind, entry.1⟩

theorem foldl_without_unreachable (doc : Document) (kinds : List ComponentKind) :
    (doc.unreachable kinds).foldl without doc = doc.sweep kinds := by
  rw [unreachable_eq, componentsOf,
    foldl_without_categories (ComponentKind.nodup_normalize kinds) _ (fun _ _ => rfl)]
  simp [sweep]

theorem target?_onCategories {reference : Reference} (h : reference.kind ∈ kinds)
    (f : ComponentKind → Entries Node → Entries Node) (doc : Document) :
    (doc.onCategories (ComponentKind.normalize kinds) f).target? reference =
      (doc.components? reference.kind).bind fun entries =>
        Entries.get? (f reference.kind entries) reference.name := by
  unfold target? component?
  rw [components?_onCategories (ComponentKind.nodup_normalize kinds),
    if_pos (ComponentKind.mem_normalize.2 h)]
  cases doc.components? reference.kind <;> rfl

theorem target?_sweep {reference : Reference} (h : reference.kind ∈ kinds) :
    (doc.sweep kinds).target? reference =
      if Live doc kinds reference then doc.target? reference else none := by
  unfold sweep
  rw [target?_onCategories h]
  unfold target? component?
  cases doc.components? reference.kind with
  | none => simp
  | some entries =>
    have hget := Entries.get?_filter (fun name => Live doc kinds ⟨reference.kind, name⟩) entries
      reference.name
    simpa using hget

/-- Changes of the given categories do not reach the roots. -/
theorem rootReferences_onCategory {kind : ComponentKind} (h : kind ∈ kinds)
    (f : Entries Node → Entries Node) (doc : Document) :
    (doc.onCategory kind f).rootReferences kinds = doc.rootReferences kinds := by
  have hgiven : isGiven kinds kind.key = true := isGiven_iff.2 ⟨kind, h, rfl⟩
  obtain ⟨root⟩ := doc
  have houtside : List.filter (·.1 ≠ componentsKey)
      (((Document.mk root).onCategory kind f).root.entries?.getD []) =
        (root.entries?.getD []).filter (·.1 ≠ componentsKey) := by
    cases root with
    | scalar value => rfl
    | sequence items => rfl
    | mapping entries =>
      exact Entries.filter_modify_of_not (fun key => key ≠ componentsKey) (by simp) _ entries
  have hcategories : List.filter (fun entry => !isGiven kinds entry.1)
      ((((Document.mk root).onCategory kind f).region? componentsKey).getD []) =
        (((Document.mk root).region? componentsKey).getD []).filter
          (fun entry => !isGiven kinds entry.1) := by
    simp only [region?, onCategory, Node.field?_modifyField_self]
    cases root.field? componentsKey with
    | none => rfl
    | some region =>
      cases region with
      | scalar value => rfl
      | sequence items => rfl
      | mapping categories =>
        exact Entries.filter_modify_of_not (fun key => !isGiven kinds key) (by simp [hgiven]) _
          categories
  unfold rootReferences
  simp only [houtside, hcategories]

theorem rootReferences_onCategories {listed : List ComponentKind}
    (h : ∀ kind ∈ listed, kind ∈ kinds) (f : ComponentKind → Entries Node → Entries Node)
    (doc : Document) :
    (doc.onCategories listed f).rootReferences kinds = doc.rootReferences kinds := by
  induction listed generalizing doc with
  | nil => rfl
  | cons first rest ih =>
    obtain ⟨hfirst, hrest⟩ := List.forall_mem_cons.1 h
    exact (ih hrest (doc.onCategory first (f first))).trans
      (rootReferences_onCategory hfirst (f first) doc)

/-- A change of the given categories that keeps what is live. -/
def KeepsLive (doc : Document) (kinds : List ComponentKind)
    (f : ComponentKind → Entries Node → Entries Node) : Prop :=
  ∀ kind ∈ kinds, ∀ entries, doc.components? kind = some entries →
    (f kind entries).filter (fun entry => Live doc kinds ⟨kind, entry.1⟩) =
      entries.filter fun entry => Live doc kinds ⟨kind, entry.1⟩

theorem KeepsLive.target? {f : ComponentKind → Entries Node → Entries Node}
    (hf : KeepsLive doc kinds f) {reference : Reference} (h : Live doc kinds reference) :
    (doc.onCategories (ComponentKind.normalize kinds) f).target? reference =
      doc.target? reference := by
  rw [target?_onCategories h.kind_mem, Document.target?, Document.component?]
  cases hentries : doc.components? reference.kind with
  | none => rfl
  | some entries =>
    have hfilter : ∀ listed : Entries Node, Entries.get? (listed.filter fun entry =>
        Live doc kinds ⟨reference.kind, entry.1⟩) reference.name =
          Entries.get? listed reference.name := by
      intro listed
      rw [Entries.get?_filter fun name => Live doc kinds ⟨reference.kind, name⟩]
      exact if_pos (decide_eq_true h)
    rw [Option.bind_some, Option.bind_some, ← hfilter, hf _ h.kind_mem entries hentries, hfilter]

/-- Such a change neither revives a component nor lets one die. -/
theorem KeepsLive.live_iff {f : ComponentKind → Entries Node → Entries Node}
    (hf : KeepsLive doc kinds f) {reference : Reference} :
    Live (doc.onCategories (ComponentKind.normalize kinds) f) kinds reference ↔
      Live doc kinds reference := by
  have hroots : (doc.onCategories (ComponentKind.normalize kinds) f).rootReferences kinds =
      doc.rootReferences kinds :=
    rootReferences_onCategories (fun _ => ComponentKind.mem_normalize.1) f doc
  have htargets : ∀ source, Live doc kinds source →
      (doc.onCategories (ComponentKind.normalize kinds) f).targetReferences source =
        doc.targetReferences source := by
    intro source hsource
    rw [targetReferences, hf.target? hsource, targetReferences]
  exact live_iff_of_agree (fun found => by rw [hroots])
    fun source hsource found => by rw [htargets source hsource]

/-- Pruning forgets such a change. -/
theorem KeepsLive.sweep {f : ComponentKind → Entries Node → Entries Node}
    (hf : KeepsLive doc kinds f) :
    (doc.onCategories (ComponentKind.normalize kinds) f).sweep kinds = doc.sweep kinds := by
  have hkinds := ComponentKind.nodup_normalize kinds
  unfold Document.sweep
  rw [onCategories_onCategories hkinds]
  refine onCategories_congr hkinds fun kind hkind entries hentries => ?_
  rw [Function.comp_apply, ← hf kind (ComponentKind.mem_normalize.1 hkind) entries hentries]
  exact List.filter_congr fun entry _ => by simp [hf.live_iff]

theorem keepsLive_filter (doc : Document) (kinds : List ComponentKind) :
    KeepsLive doc kinds fun kind entries =>
      entries.filter fun entry => Live doc kinds ⟨kind, entry.1⟩ := by
  intro kind _ entries _
  simp

theorem live_sweep_iff {reference : Reference} :
    Live (doc.sweep kinds) kinds reference ↔ Live doc kinds reference :=
  (keepsLive_filter doc kinds).live_iff

/-- A second search finds nothing to remove. -/
theorem unreachable_sweep (doc : Document) (kinds : List ComponentKind) :
    (doc.sweep kinds).unreachable kinds = [] := by
  rw [unreachable_eq, List.filter_eq_nil_iff]
  intro reference hmem
  obtain ⟨hkind, htarget⟩ := mem_componentsOf.1 hmem
  rw [target?_sweep hkind] at htarget
  split at htarget
  next hlive => simpa using live_sweep_iff.2 hlive
  next => simp at htarget

/-- Two searches are enough, one if nothing is to be removed. -/
theorem pruneFrom_eq (doc : Document) (kinds : List ComponentKind) (fuel : Nat) :
    pruneFrom kinds (fuel + 2) doc =
      (⟨doc.unreachable kinds, if (doc.unreachable kinds).isEmpty then 1 else 2⟩,
        doc.sweep kinds) := by
  have hsweep := doc.foldl_without_unreachable kinds
  rw [pruneFrom]
  cases hfound : doc.unreachable kinds with
  | nil =>
    rw [hfound] at hsweep
    simp [← hsweep]
  | cons first rest =>
    rw [hfound] at hsweep
    simp [hsweep, pruneFrom, unreachable_sweep]

theorem prune_eq (kinds : List ComponentKind) (doc : Document) :
    prune kinds doc =
      (⟨doc.unreachable kinds, if (doc.unreachable kinds).isEmpty then 1 else 2⟩,
        doc.sweep kinds) := by
  unfold prune
  cases hcomponents : doc.componentsOf kinds with
  | cons first rest => exact pruneFrom_eq doc kinds rest.length
  | nil =>
    have hnone : doc.unreachable kinds = [] := by rw [unreachable, hcomponents]; rfl
    have hsweep := doc.foldl_without_unreachable kinds
    rw [hnone] at hsweep
    simp [pruneFrom, hnone, ← hsweep]

/-- The loop ends by itself: more fuel than there are components to remove is not used. -/
theorem pruneFrom_add (doc : Document) (kinds : List ComponentKind) (more : Nat) :
    pruneFrom kinds ((doc.componentsOf kinds).length + 1 + more) doc = prune kinds doc := by
  cases more with
  | zero => rfl
  | succ more =>
    have hfuel : (doc.componentsOf kinds).length + 1 + (more + 1) =
        (doc.componentsOf kinds).length + more + 2 := by omega
    rw [hfuel, pruneFrom_eq, prune_eq]

theorem distinct_components {kind : ComponentKind} {entries : Entries Node}
    (hdoc : doc.root.WellFormed) (h : doc.components? kind = some entries) :
    Entries.Distinct entries := by
  obtain ⟨categories, hregion, hcategory⟩ := components?_eq_some.1 h
  exact ((hdoc.field? hregion).field? hcategory).1

theorem nodup_componentsOf (hdoc : doc.root.WellFormed) (kinds : List ComponentKind) :
    (doc.componentsOf kinds).Nodup := by
  refine List.nodup_flatMap.2 ⟨fun kind _ => ?_, ?_⟩
  · refine List.Nodup.map (fun _ _ heq => (Reference.mk.inj heq).2) ?_
    unfold componentNames
    cases hentries : doc.components? kind with
    | none => exact List.nodup_nil
    | some entries => exact distinct_components hdoc hentries
  · refine (ComponentKind.nodup_normalize kinds).imp fun hne => ?_
    intro reference hfirst hsecond
    obtain ⟨_, _, rfl⟩ := List.mem_map.1 hfirst
    obtain ⟨_, _, heq⟩ := List.mem_map.1 hsecond
    exact hne (Reference.mk.inj heq).1.symm

/-- What pruning the components of some kinds does to a document. The first two parts say that
neither loop ends because its fuel is used up; only the last one asks that no key occurs twice. -/
structure ExactPruning (doc : Document) (kinds : List ComponentKind) : Prop where
  search_stops : ∀ (searched : Document) (more : Nat),
    follow searched kinds (searched.referenceCount kinds + more) (searched.rootReferences kinds)
      [] = searched.reachable kinds
  loop_stops : ∀ more : Nat,
    pruneFrom kinds ((doc.componentsOf kinds).length + 1 + more) doc = prune kinds doc
  nothing_left : (prune kinds doc).2.unreachable kinds = []
  /-- The entries of the given categories are filtered in place; nothing else changes. -/
  document : (prune kinds doc).2 =
    doc.onCategories (ComponentKind.normalize kinds) fun kind entries =>
      entries.filter fun entry => Live doc kinds ⟨kind, entry.1⟩
  component : ∀ reference : Reference, reference.kind ∈ kinds →
    (prune kinds doc).2.target? reference =
      if Live doc kinds reference then doc.target? reference else none
  removed : (prune kinds doc).1.removed =
    (doc.componentsOf kinds).filter fun reference => ¬ Live doc kinds reference
  once : doc.root.WellFormed → (prune kinds doc).1.removed.Nodup

/-- Pruning leaves exactly the live components. -/
theorem prune_exact (doc : Document) (kinds : List ComponentKind) : ExactPruning doc kinds := by
  have hprune := prune_eq kinds doc
  have hremoved : (prune kinds doc).1.removed =
      (doc.componentsOf kinds).filter fun reference => ¬ Live doc kinds reference := by
    rw [hprune, unreachable_eq]
  constructor
  case search_stops => exact fun searched more => follow_eq_reachable searched kinds more
  case loop_stops => exact pruneFrom_add doc kinds
  case nothing_left => rw [hprune, unreachable_sweep]
  case document => rw [hprune, sweep]
  case component => exact fun reference hkind => by rw [hprune, target?_sweep hkind]
  case removed => exact hremoved
  case once => exact fun hdoc => hremoved ▸ (nodup_componentsOf hdoc kinds).filter _

/-- Schemas that refer to each other or to themselves, of which a path uses one. -/
def knotted : Document :=
  let pointing (name : String) : Node := (Reference.mk .schemas name).toNode
  ⟨.mapping [("paths", .mapping [("/a", .sequence [pointing "chain"])]),
    ("components", .mapping [
      ("schemas", .mapping [("self", pointing "self"), ("chain", pointing "end"),
        ("ring", pointing "back"), ("back", pointing "ring"), ("end", pointing "chain"),
        ("named", .null)]),
      ("headers", .mapping [("X-Named", pointing "named")])])]⟩

theorem prune_exact_knotted :
    knotted.root.WellFormed ∧
      (prune [.schemas] knotted).1.removed =
        [⟨.schemas, "self"⟩, ⟨.schemas, "ring"⟩, ⟨.schemas, "back"⟩] ∧
      (prune [.schemas] knotted).1.removed.Nodup ∧
      (prune [.schemas] knotted).2.componentNames .schemas = ["chain", "end", "named"] := by
  have hwell : knotted.root.WellFormed := by
    simp [knotted, Reference.toNode, Node.WellFormed, Node.WellFormedEntries,
      Node.WellFormedItems, Entries.Distinct, Entries.keys, Node.null, Node.ofString]
  have hexact := prune_exact knotted [.schemas]
  refine ⟨hwell, hexact.removed.trans (by decide), hexact.once hwell, ?_⟩
  rw [hexact.document]
  decide

end ApiTidy.Document
