import ApiTidy.Proofs.Pipeline

/-!
What the count of a pass says. A pass that counts no edit made none, except that the removal of
examples may give a document the category of named examples without counting it. A pass that
follows no list of edits counts nothing when it is applied a second time.
-/
namespace ApiTidy
open Alternatives Nullable Examples Document
variable {pass : Pass} {doc changed : Document}

theorem eq_of_changeRoot_eq_ok_zero {change : Change Node} (hchange : Change.Honest change)
    (h : Pass.changeRoot change doc = .ok 0 changed) : changed = doc := by
  rw [changeRoot_eq_ok] at h
  obtain ⟨hcount, hchanged⟩ := EStateM.Result.ok.inj h
  rw [← hchanged, hchange doc.root hcount]

theorem sweep_eq_self {kinds : List ComponentKind} (h : doc.unreachable kinds = []) :
    doc.sweep kinds = doc := by
  have hsweep := foldl_without_unreachable doc kinds
  rw [h] at hsweep
  exact hsweep.symm

/-- Every pass but the removal of examples counts all of its edits. -/
theorem eq_of_apply_eq_ok_zero_of_ne (hname : pass.name ≠ .stripExamples)
    (h : pass.apply doc = .ok 0 changed) : changed = doc := by
  cases pass with
  | stripParameters matchers =>
    exact eq_of_changeRoot_eq_ok_zero (Parameters.honest_strip matchers) h
  | simplifyContentTypes => exact eq_of_changeRoot_eq_ok_zero MediaTypes.honest_simplify h
  | backfillResponses defaults =>
    exact eq_of_changeRoot_eq_ok_zero (Responses.honest_backfill defaults) h
  | relocatePaths relocations => exact Edit.eq_of_forM_eq_ok_zero (Edit.mapError_eq_ok.1 h)
  | applyFixes fixes =>
    obtain ⟨root, hroot, rfl⟩ := onRoot_eq_ok.1 h
    exact congrArg Document.mk (Edit.eq_of_forM_eq_ok_zero (Edit.mapError_eq_ok.1 hroot))
  | extractComponents extractions => exact Edit.eq_of_forM_eq_ok_zero h
  | dedupeAlternatives =>
    exact eq_of_changeRoot_eq_ok_zero (Change.honest_of_exact exact_dedupe) h
  | propagateOmitEmpty marker =>
    exact eq_of_changeRoot_eq_ok_zero (Change.honest_of_exact (exact_mark marker)) h
  | stripExamples => exact absurd rfl hname
  | pruneUnreachable kinds =>
    rw [apply_pruneUnreachable] at h
    obtain ⟨hcount, hchanged⟩ := EStateM.Result.ok.inj h
    have hnone : doc.unreachable kinds = [] := List.length_eq_zero_iff.1 hcount
    rw [← hchanged, sweep_eq_self hnone]

/-- A document that has components, but no mapping of named examples among them. -/
def LacksExamples (doc : Document) : Prop :=
  (doc.region? componentsKey).isSome ∧ doc.components? .examples = none

/-- Emptying the named examples where there are none keeps a document that does not lack the
category. -/
theorem resetExamples_eq_self_iff (h : doc.componentNames .examples = []) :
    resetExamples doc.root = doc.root ↔ ¬ LacksExamples doc := by
  unfold LacksExamples
  constructor
  · rintro hsame ⟨hregion, hnone⟩
    obtain ⟨categories, hcategories⟩ := Option.isSome_iff_exists.1 hregion
    have hfield := Node.bind_entries?_eq_some.1 hcategories
    have hreset : components? ⟨resetExamples doc.root⟩ .examples = some [] := by
      rw [components?_eq, resetExamples, Node.field?_modifyField_self, hfield]
      simp [Node.field?, Node.entries?]
    rw [hsame] at hreset
    rw [hnone] at hreset
    cases hreset
  · intro hlacks
    apply Node.modifyField_eq_self
    intro region hregion
    apply Node.onEntries_eq_self
    intro categories hcategories
    subst hcategories
    have hsome : (doc.region? componentsKey).isSome := by
      rw [region?, hregion]
      rfl
    cases hexamples : doc.components? .examples with
    | none => exact absurd ⟨hsome, hexamples⟩ hlacks
    | some examples =>
      rw [componentNames, hexamples] at h
      have hempty : examples = [] := List.map_eq_nil_iff.1 h
      subst hempty
      obtain ⟨found, hfound, hcategory⟩ := components?_eq_some.1 hexamples
      obtain rfl := Node.mapping.inj (Option.some.inj (hregion.symm.trans hfound))
      exact Entries.insert_of_get? hcategory

/-- A pass that counts no edit leaves the document exactly as it was, unless it removes examples and
the document lacks the category of named ones: then that category comes, empty, and nothing else
changes. -/
theorem eq_of_apply_eq_ok_zero (h : pass.apply doc = .ok 0 changed) :
    (changed = doc ↔ ¬ (pass.name = .stripExamples ∧ LacksExamples doc)) ∧
      (changed ≠ doc → changed = ⟨resetExamples doc.root⟩) := by
  by_cases hname : pass.name = .stripExamples
  · cases pass <;> cases hname
    obtain ⟨hcount, hchanged⟩ := EStateM.Result.ok.inj ((removeExamples_eq doc).symm.trans h)
    obtain ⟨hstrip, hnames⟩ := Nat.add_eq_zero_iff.1 hcount
    have hroot : strippedRegions doc.root = doc.root := by
      rw [← stripRegions_fst]
      exact honest_stripRegions doc.root hstrip
    rw [hroot] at hchanged hnames
    have hnone : doc.componentNames .examples = [] := List.length_eq_zero_iff.1 hnames
    subst hchanged
    constructor
    · have hiff := resetExamples_eq_self_iff hnone
      constructor
      · rintro hsame ⟨-, hlacks⟩
        exact hiff.1 (congrArg Document.root hsame) hlacks
      · intro hnot
        exact congrArg Document.mk (hiff.2 fun hlacks => hnot ⟨rfl, hlacks⟩)
    · exact fun _ => rfl
  · have hsame := eq_of_apply_eq_ok_zero_of_ne hname h
    constructor
    · exact ⟨fun _ hboth => hname hboth.1, fun _ => hsame⟩
    · exact fun hne => absurd hsame hne

/-- Alternatives that repeat no reference. -/
def distinctAlternatives : Document :=
  ⟨.mapping [("components", .mapping [("schemas", .mapping [("Pet", .mapping [("oneOf",
    .sequence [(Reference.mk .schemas "Cat").toNode, (Reference.mk .schemas "Dog").toNode,
      .mapping [], .mapping []])])])])]⟩

theorem eq_of_apply_eq_ok_zero_distinctAlternatives :
    ∃ changed, Pass.dedupeAlternatives.apply distinctAlternatives = .ok 0 changed ∧
      changed = distinctAlternatives := by
  have hrun : ∃ changed, Pass.dedupeAlternatives.apply distinctAlternatives = .ok 0 changed :=
    ⟨_, rfl⟩
  obtain ⟨changed, hchanged⟩ := hrun
  refine ⟨changed, hchanged, (eq_of_apply_eq_ok_zero hchanged).1.2 ?_⟩
  rintro ⟨hname, -⟩
  cases hname

/-- A document with components of no category. -/
def bareComponents : Document := ⟨.mapping [("components", .mapping [])]⟩

theorem not_all_uncounted_runs_unchanged :
    ¬ ∀ (pass : Pass) (doc changed : Document), pass.apply doc = .ok 0 changed →
      changed = doc := by
  intro hall
  have hrun : Pass.stripExamples.apply bareComponents =
      .ok 0 ⟨.mapping [("components", .mapping [("examples", .mapping [])])]⟩ := rfl
  have hregion := congrArg (fun doc => (doc.region? componentsKey).map List.length)
    (hall _ _ _ hrun)
  exact absurd hregion (by decide)

/-- Whether a pass works through a list of edits that the configuration gives. -/
def Pass.followsList : Pass → Bool
  | .relocatePaths _ | .applyFixes _ | .extractComponents _ => true
  | _ => false

theorem changeRoot_changeRoot {change : Change Node} (h : Change.Settles change) (doc : Document) :
    ∃ count once, Pass.changeRoot change doc = .ok count once ∧
      Pass.changeRoot change once = .ok 0 once := by
  have hstill := h doc.root
  refine ⟨_, _, changeRoot_eq_ok change doc, ?_⟩
  rw [changeRoot_eq_ok]
  unfold Change.Still at hstill
  rw [hstill]

/-- Where removing examples changes neither region there are none to count. -/
theorem still_stripRegions {root : Node} (h : strippedRegions root = root) :
    Change.Still stripRegions root := by
  have hne : componentsKey ≠ pathsKey := by decide
  have hnamed : ∀ node, stripped true node = node → Change.Still stripNamed node :=
    fun node hnode => Prod.ext hnode ((exact_stripNamed node).2 hnode)
  apply Change.still_andThen
  · apply Change.still_atField
    intro paths hpaths
    have hfield := congrArg (Node.field? · pathsKey) h
    simp only [strippedRegions, Node.field?_modifyField_of_ne hne.symm,
      Node.field?_modifyField_self, hpaths, Option.map_some, Option.some.injEq] at hfield
    exact hnamed paths hfield
  · apply Change.still_atField
    intro region hregion
    apply Change.still_inMapping
    intro categories hcategories
    subst hcategories
    have hfield := congrArg (Node.field? · componentsKey) h
    simp only [strippedRegions, Node.field?_modifyField_of_ne hne, Node.field?_modifyField_self,
      hregion, Option.map_some, Option.some.injEq, Node.onEntries_mapping,
      Node.mapping.injEq] at hfield
    apply Change.still_onValues
    intro category hmem
    exact hnamed category.2 (Entries.mapValues_eq_self_iff.1 hfield category hmem)

theorem componentNames_resetExamples (root : Node) :
    componentNames ⟨resetExamples root⟩ .examples = [] := by
  rw [componentNames, components?_eq, resetExamples, Node.field?_modifyField_self]
  cases root.field? componentsKey with
  | none => rfl
  | some region =>
    cases region with
    | scalar value => rfl
    | sequence items => rfl
    | mapping categories => simp [Node.field?, Node.entries?, Entries.keys]

theorem removeExamples_removeExamples (doc : Document) :
    ∃ count once, Pass.removeExamples doc = .ok count once ∧
      Pass.removeExamples once = .ok 0 once := by
  refine ⟨_, _, removeExamples_eq doc, ?_⟩
  have hstripped : strippedRegions (resetExamples (strippedRegions doc.root)) =
      resetExamples (strippedRegions doc.root) := by
    rw [strippedRegions_resetExamples, strippedRegions_strippedRegions]
  rw [removeExamples_eq, hstripped, still_stripRegions hstripped, resetExamples_resetExamples,
    componentNames_resetExamples]
  rfl

theorem apply_apply_pruneUnreachable (kinds : List ComponentKind) (doc : Document) :
    ∃ count once, (Pass.pruneUnreachable kinds).apply doc = .ok count once ∧
      (Pass.pruneUnreachable kinds).apply once = .ok 0 once := by
  refine ⟨_, _, apply_pruneUnreachable kinds doc, ?_⟩
  rw [apply_pruneUnreachable, unreachable_sweep, sweep_sweep]
  rfl

/-- A pass that follows no list of edits succeeds, and finds nothing to do when it is applied
again. -/
theorem apply_apply_of_followsList (h : pass.followsList = false) (doc : Document) :
    ∃ count once, pass.apply doc = .ok count once ∧ pass.apply once = .ok 0 once := by
  cases pass with
  | stripParameters matchers => exact changeRoot_changeRoot (Parameters.settles_strip matchers) doc
  | simplifyContentTypes => exact changeRoot_changeRoot MediaTypes.settles_simplify doc
  | backfillResponses defaults =>
    exact changeRoot_changeRoot (Responses.settles_backfill defaults) doc
  | relocatePaths relocations => cases h
  | applyFixes fixes => cases h
  | extractComponents extractions => cases h
  | dedupeAlternatives => exact changeRoot_changeRoot settles_dedupe doc
  | propagateOmitEmpty marker => exact changeRoot_changeRoot (settles_mark marker) doc
  | stripExamples => exact removeExamples_removeExamples doc
  | pruneUnreachable kinds => exact apply_apply_pruneUnreachable kinds doc

/-- A response without any field. -/
def bareResponse : Document :=
  ⟨.mapping [("components", .mapping [("responses", .mapping [("Empty", .mapping [])])])]⟩

/-- One of the fields makes the response a reference, of which no second pass takes notice. -/
theorem apply_apply_of_followsList_bareResponse :
    let pass := Pass.backfillResponses [⟨"description", .ofString ""⟩, ⟨"$ref", .ofString ""⟩]
    pass.followsList = false ∧
      ∃ once, pass.apply bareResponse = .ok 2 once ∧ pass.apply once = .ok 0 once := by
  intro pass
  have hlist : pass.followsList = false := rfl
  have hfilled : ∃ once, pass.apply bareResponse = .ok 2 once := ⟨_, rfl⟩
  obtain ⟨count, once, honce, hagain⟩ := apply_apply_of_followsList hlist bareResponse
  obtain ⟨found, hfound⟩ := hfilled
  obtain ⟨rfl, rfl⟩ := EStateM.Result.ok.inj (honce.symm.trans hfound)
  exact ⟨hlist, once, honce, hagain⟩

end ApiTidy
