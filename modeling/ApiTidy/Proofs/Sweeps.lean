import ApiTidy.Proofs.Pruning
import ApiTidy.Proofs.References

/-!
How often a pruning searches, and how prunings of different categories combine. What is in use does
not depend on the components that are not, so they may go in any order and number. To prune one more
category makes fewer things roots: its own components now have to be in use to keep others alive.
-/
namespace ApiTidy.Document
variable {doc : Document} {kinds : List ComponentKind}

theorem target?_without_of_ne {reference other : Reference} (h : other ≠ reference)
    (doc : Document) : (doc.without reference).target? other = doc.target? other := by
  rw [without_eq_onCategory, target?, component?, target?, component?]
  by_cases hkind : other.kind = reference.kind
  · have hname : other.name ≠ reference.name := by
      intro hname
      obtain ⟨kind, name⟩ := other
      obtain rfl : kind = reference.kind := hkind
      obtain rfl : name = reference.name := hname
      exact h rfl
    rw [hkind, components?_onCategory_self]
    cases doc.components? reference.kind with
    | none => rfl
    | some entries => exact Entries.get?_erase_of_ne hname entries
  · rw [components?_onCategory_of_ne hkind]

/-- Taking out one component that is not in use leaves the others in use, and no more. -/
theorem live_without_iff {reference : Reference} (hkind : reference.kind ∈ kinds)
    (hdead : ¬ Live doc kinds reference) {found : Reference} :
    Live (doc.without reference) kinds found ↔ Live doc kinds found := by
  refine live_iff_of_agree (fun other => ?_) fun source hsource other => ?_
  · rw [without_eq_onCategory, rootReferences_onCategory hkind]
  · have hne : source ≠ reference := fun heq => hdead (heq ▸ hsource)
    rw [targetReferences, target?_without_of_ne hne, targetReferences]

/-- So may any number of them go, one by one. -/
theorem live_foldl_without_iff {dead : List Reference}
    (hdead : ∀ reference ∈ dead, reference.kind ∈ kinds ∧ ¬ Live doc kinds reference)
    {found : Reference} : Live (dead.foldl without doc) kinds found ↔ Live doc kinds found := by
  induction dead generalizing doc with
  | nil => rfl
  | cons first rest ih =>
    obtain ⟨⟨hkind, hfirst⟩, hrest⟩ := List.forall_mem_cons.1 hdead
    have hstep : ∀ {other}, Live (doc.without first) kinds other ↔ Live doc kinds other :=
      live_without_iff hkind hfirst
    have hstill : ∀ reference ∈ rest,
        reference.kind ∈ kinds ∧ ¬ Live (doc.without first) kinds reference := by
      intro reference hmem
      rw [hstep]
      exact hrest reference hmem
    rw [List.foldl_cons, ih hstill, hstep]

/-- A pruning searches once, and a second time if it removed something. What was found reachable is
so still when any of the unreachable components are gone, so the second search finds nothing new. -/
structure OneSweep (doc : Document) (kinds : List ComponentKind) : Prop where
  searches : (prune kinds doc).1.searches = if (prune kinds doc).1.removed = [] then 1 else 2
  /-- The loop ends by itself and not because its fuel is used up. -/
  loop_stops : ∀ more : Nat,
    pruneFrom kinds ((doc.componentsOf kinds).length + 1 + more) doc = prune kinds doc
  removed : (prune kinds doc).1.removed = doc.unreachable kinds
  document : (prune kinds doc).2 = (doc.unreachable kinds).foldl without doc
  reachable : ∀ dead : List Reference, dead ⊆ doc.unreachable kinds → ∀ reference,
    reference ∈ (dead.foldl without doc).reachable kinds ↔ reference ∈ doc.reachable kinds
  nothing_left : ((doc.unreachable kinds).foldl without doc).unreachable kinds = []

theorem prune_oneSweep (doc : Document) (kinds : List ComponentKind) : OneSweep doc kinds := by
  have hprune := prune_eq kinds doc
  have hsweep := foldl_without_unreachable doc kinds
  constructor
  case searches => simp [hprune]
  case loop_stops => exact pruneFrom_add doc kinds
  case removed => rw [hprune]
  case document => rw [hprune, hsweep]
  case reachable =>
    intro dead hdead reference
    have hunused : ∀ found ∈ dead, found.kind ∈ kinds ∧ ¬ Live doc kinds found := by
      intro found hfound
      have hmem := hdead hfound
      rw [unreachable_eq] at hmem
      obtain ⟨hcomponent, hnot⟩ := List.mem_filter.1 hmem
      exact ⟨(mem_componentsOf.1 hcomponent).1, of_decide_eq_true hnot⟩
    rw [mem_reachable_iff, mem_reachable_iff, live_foldl_without_iff hunused]
  case nothing_left => rw [hsweep, unreachable_sweep]

/-- What is in use is so still when only one of two dead components that refer to each other is
gone. -/
theorem prune_oneSweep_knotted :
    (prune [.schemas] knotted).1.searches = 2 ∧
      [⟨.schemas, "back"⟩] ⊆ knotted.unreachable [.schemas] ∧
      ∀ reference, reference ∈ (knotted.without ⟨.schemas, "back"⟩).reachable [.schemas] ↔
        reference ∈ knotted.reachable [.schemas] := by
  have hone := prune_oneSweep knotted [.schemas]
  have hdead : [⟨.schemas, "back"⟩] ⊆ knotted.unreachable [.schemas] := by decide
  exact ⟨hone.searches.trans (by decide), hdead, hone.reachable _ hdead⟩

section Subset
variable {fewer : List ComponentKind}

/-- What is in use when more kinds are pruned is so when fewer are: a component of a kind that is
not pruned is a root instead. -/
theorem Live.of_subset (hfewer : fewer ⊆ kinds) {reference : Reference}
    (h : Live doc kinds reference) (hkind : reference.kind ∈ fewer) :
    Live doc fewer reference := by
  induction h with
  | outside hroot hmem hkey href _ => exact .outside hroot hmem hkey href hkind
  | category hregion hmem hnot href _ =>
    exact .category hregion hmem (fun kind hgiven => hnot kind (hfewer hgiven)) href hkind
  | @step source component reference _ htarget href _ ih =>
    by_cases hsource : source.kind ∈ fewer
    case pos => exact .step (ih hsource) htarget href hkind
    obtain ⟨entries, hentries, hname⟩ := Option.bind_eq_some_iff.1 htarget
    obtain ⟨categories, hregion, hcategory⟩ := components?_eq_some.1 hentries
    have hfree : ∀ kind ∈ fewer, kind.key ≠ source.kind.key := by
      intro kind hgiven hkey
      exact hsource (ComponentKind.key_inj hkey ▸ hgiven)
    have hbelow : reference ∈ (Node.mapping entries).references :=
      Node.references_of_mem_subset (Entries.mem_of_get? hname) href
    exact .category hregion (Entries.mem_of_get? hcategory) hfree hbelow hkind

theorem unreachable_subset (hfewer : fewer ⊆ kinds) (doc : Document) :
    doc.unreachable fewer ⊆ doc.unreachable kinds := by
  intro reference hmem
  rw [unreachable_eq, List.mem_filter, mem_componentsOf, decide_eq_true_eq] at hmem ⊢
  obtain ⟨⟨hkind, htarget⟩, hdead⟩ := hmem
  exact ⟨⟨hfewer hkind, htarget⟩, fun hlive => hdead (hlive.of_subset hfewer hkind)⟩

theorem onCategories_filter (p : ComponentKind → Bool) (listed : List ComponentKind)
    (f : ComponentKind → Entries Node → Entries Node) (doc : Document) :
    doc.onCategories (listed.filter p) f =
      doc.onCategories listed fun kind entries => if p kind then f kind entries else entries := by
  induction listed generalizing doc with
  | nil => rfl
  | cons first rest ih =>
    rw [onCategories_cons]
    cases hfirst : p first with
    | true =>
      rw [List.filter_cons_of_pos hfirst, onCategories_cons, ih]
      simp
    | false =>
      have hskip : doc.onCategory first (fun entries => entries) = doc := onCategory_id first doc
      rw [List.filter_cons_of_neg (by simp [hfirst]), ih]
      simp [hskip]

/-- The sweep of fewer kinds as a change of all kinds, of which some stay as they are. -/
theorem sweep_eq_onCategories (hfewer : fewer ⊆ kinds) (doc : Document) :
    doc.sweep fewer = doc.onCategories (ComponentKind.normalize kinds) fun kind entries =>
      if fewer.contains kind then entries.filter fun entry => Live doc fewer ⟨kind, entry.1⟩
      else entries := by
  have hnormal : ComponentKind.normalize fewer =
      (ComponentKind.normalize kinds).filter (fewer.contains ·) := by
    rw [ComponentKind.normalize, ComponentKind.normalize, List.filter_filter]
    refine List.filter_congr fun kind _ => ?_
    by_cases hkind : kind ∈ fewer
    · simp [hkind, hfewer hkind]
    · simp [hkind]
  rw [sweep, hnormal, onCategories_filter]

theorem sweep_sweep_of_subset (hfewer : fewer ⊆ kinds) (doc : Document) :
    (doc.sweep fewer).sweep kinds = doc.sweep kinds := by
  rw [sweep_eq_onCategories hfewer]
  refine KeepsLive.sweep fun kind _ entries _ => ?_
  split
  next hkind =>
    have hgiven : kind ∈ fewer := List.contains_iff_mem.1 hkind
    rw [List.filter_filter]
    refine List.filter_congr fun entry _ => ?_
    by_cases hlive : Live doc kinds ⟨kind, entry.1⟩
    · simp [hlive, hlive.of_subset hfewer hgiven]
    · simp [hlive]
  next => rfl

/-- Pruning more kinds removes what pruning fewer of them removes, and leaves the same document
whether or not the fewer were pruned first. -/
theorem prune_of_subset (hfewer : fewer ⊆ kinds) (doc : Document) :
    (prune fewer doc).1.removed ⊆ (prune kinds doc).1.removed ∧
      (prune kinds (prune fewer doc).2).2 = (prune kinds doc).2 := by
  simp only [prune_eq]
  exact ⟨unreachable_subset hfewer doc, sweep_sweep_of_subset hfewer doc⟩

/-- A parameter that nothing uses keeps a schema alive, unless parameters are pruned as well. -/
def leaning : Document :=
  let pointing (name : String) : Node := (Reference.mk .schemas name).toNode
  ⟨.mapping [("paths", .mapping [("/a", pointing "used")]),
    ("components", .mapping [
      ("parameters", .mapping [("unused", .mapping [("schema", pointing "held")])]),
      ("schemas", .mapping [("used", .null), ("held", pointing "next"), ("next", pointing "held"),
        ("dead", .null)])])]⟩

theorem prune_of_subset_leaning :
    [ComponentKind.schemas] ⊆ [.parameters, .schemas] ∧
      (prune [.schemas] leaning).1.removed = [⟨.schemas, "dead"⟩] ∧
      (prune [.schemas] leaning).1.removed ⊆ (prune [.parameters, .schemas] leaning).1.removed ∧
      (prune [.parameters, .schemas] (prune [.schemas] leaning).2).2 =
        (prune [.parameters, .schemas] leaning).2 ∧
      (prune [.parameters, .schemas] leaning).2.componentNames .schemas = ["used"] := by
  have hkinds : [ComponentKind.schemas] ⊆ [.parameters, .schemas] := by decide
  obtain ⟨hremoved, hdocument⟩ := prune_of_subset hkinds leaning
  exact ⟨hkinds, by decide, hremoved, hdocument, by decide⟩

end Subset

end ApiTidy.Document
