import ApiTidy.Proofs.Address.Place
import ApiTidy.Proofs.Alike
import ApiTidy.Proofs.Pruning

/-!
Pruning does not depend on the order of keys. The search looks at references in the order of the
document, so two equal documents are searched in different orders; what it finds is the set of
components in use, and that is said without an order.
-/
namespace ApiTidy

namespace Node.Alike
variable {first second : Node}

theorem under? (h : Alike first second) (keys : List String) :
    Option.Rel Alike (Node.under? keys first) (Node.under? keys second) := by
  induction keys generalizing first second with
  | nil => exact .some h
  | cons key rest ih =>
    rw [Node.under?, Node.under?]
    obtain ⟨x, y, hx, hy, hxy⟩ | ⟨hx, hy⟩ := Entries.rel_cases (h.field? key) <;> rw [hx, hy]
    · exact ih hxy
    · exact .none

/-- The entries of equal nodes, if there are any, make equal mappings. -/
theorem entries {first second : Option Node} (h : Option.Rel Alike first second) :
    Alike (.mapping ((first.bind entries?).getD [])) (.mapping ((second.bind entries?).getD [])) := by
  have hempty : Alike (.mapping []) (.mapping []) :=
    alike_mapping.2 ⟨List.nodup_nil, List.nodup_nil, fun _ => .none⟩
  obtain ⟨x, y, rfl, rfl, hxy⟩ | ⟨rfl, rfl⟩ := Entries.rel_cases h
  · obtain ⟨a, b, rfl, rfl, -⟩ | ⟨as, bs, rfl, rfl, -⟩ | ⟨as, bs, rfl, rfl, -⟩ := hxy.cases
    · exact hempty
    · exact hempty
    · exact hxy
  · exact hempty

/-- The values under keys of some kind hold the same references. -/
theorem flatMap_filter_perm {first second : Entries Node}
    (h : Alike (.mapping first) (.mapping second)) (p : String → Bool) :
    ((first.filter (p ·.1)).flatMap (·.2.references)).Perm
      ((second.filter (p ·.1)).flatMap (·.2.references)) := by
  obtain ⟨hfirst, hsecond, hagree⟩ := alike_mapping.1 h
  apply (hagree.filter p).flatMap_perm
  · exact hfirst.sublist (List.filter_sublist.map _)
  · exact hsecond.sublist (List.filter_sublist.map _)
  · exact fun _ _ _ hvalue => hvalue.references_perm

end Node.Alike

namespace Document
variable {first second : Document} {kinds : List ComponentKind}

theorem target?_rel (h : Node.Alike first.root second.root) (reference : Reference) :
    Option.Rel Node.Alike (first.target? reference) (second.target? reference) := by
  rw [target?_eq_under?, target?_eq_under?]
  exact h.under? _

theorem rootReferences_perm (h : Node.Alike first.root second.root) (kinds : List ComponentKind) :
    (first.rootReferences kinds).Perm (second.rootReferences kinds) := by
  have houtside := Node.Alike.entries (.some h)
  have hcategories := Node.Alike.entries (h.field? componentsKey)
  apply List.Perm.append
  · exact houtside.flatMap_filter_perm (· ≠ componentsKey)
  · exact hcategories.flatMap_filter_perm fun category => !isGiven kinds category

theorem targetReferences_perm (h : Node.Alike first.root second.root) (source : Reference) :
    (first.targetReferences source).Perm (second.targetReferences source) := by
  rw [targetReferences, targetReferences]
  obtain ⟨x, y, hx, hy, hxy⟩ | ⟨hx, hy⟩ := Entries.rel_cases (target?_rel h source) <;> rw [hx, hy]
  exact hxy.references_perm

/-- Equal documents have the same components in use. -/
theorem live_iff_of_alike (h : Node.Alike first.root second.root) {reference : Reference} :
    Live first kinds reference ↔ Live second kinds reference :=
  live_iff_of_agree (fun _ => (rootReferences_perm h kinds).mem_iff)
    fun source _ _ => (targetReferences_perm h source).mem_iff

/-- They have the same components that are not in use, each once. -/
theorem unreachable_perm (h : Node.Alike first.root second.root) (kinds : List ComponentKind) :
    (first.unreachable kinds).Perm (second.unreachable kinds) := by
  rw [unreachable_eq, unreachable_eq]
  apply (List.perm_ext_iff_of_nodup ((nodup_componentsOf h.left kinds).filter _)
    ((nodup_componentsOf h.right kinds).filter _)).2
  intro reference
  have htarget : (first.target? reference).isSome = (second.target? reference).isSome := by
    obtain ⟨x, y, hx, hy, -⟩ | ⟨hx, hy⟩ := Entries.rel_cases (target?_rel h reference)
    · rw [hx, hy, Option.isSome_some, Option.isSome_some]
    · rw [hx, hy]
  simp [mem_componentsOf, htarget, live_iff_of_alike h]

/-- Filtering the components of several categories by name leaves equal documents equal. -/
theorem alike_onCategories (h : Node.Alike first.root second.root) (listed : List ComponentKind)
    (p : ComponentKind → String → Bool) :
    Node.Alike (first.onCategories listed fun kind entries => entries.filter (p kind ·.1)).root
      (second.onCategories listed fun kind entries => entries.filter (p kind ·.1)).root := by
  induction listed generalizing first second with
  | nil => exact h
  | cons kind rest ih =>
    apply ih
    refine h.modifyField (fun _ _ hregion => ?_) componentsKey
    exact hregion.modifyField (fun _ _ hcategory => hcategory.onEntries_filter (p kind)) kind.key

theorem alike_sweep (h : Node.Alike first.root second.root) (kinds : List ComponentKind) :
    Node.Alike (first.sweep kinds).root (second.sweep kinds).root := by
  have hsame : first.sweep kinds = first.onCategories (ComponentKind.normalize kinds)
      fun kind entries => entries.filter fun entry => Live second kinds ⟨kind, entry.1⟩ := by
    unfold sweep
    refine onCategories_congr (ComponentKind.nodup_normalize kinds) fun kind _ entries _ => ?_
    exact List.filter_congr fun entry _ => by simp [live_iff_of_alike h]
  rw [hsame]
  exact alike_onCategories h _ fun kind name => Live second kinds ⟨kind, name⟩

/-- Documents that are equal up to the order of keys have the same components in use, lose the same
ones by a pruning and are equal after it. -/
theorem prune_of_same (hfirst : first.root.WellFormed) (hsecond : second.root.WellFormed)
    (hsame : first.root.same second.root = true) (kinds : List ComponentKind) :
    (∀ reference, reference ∈ first.reachable kinds ↔ reference ∈ second.reachable kinds) ∧
      (prune kinds first).1.removed.Perm (prune kinds second).1.removed ∧
      (prune kinds first).2.root.same (prune kinds second).2.root = true := by
  have h : Node.Alike first.root second.root := ⟨hfirst, hsecond, hsame⟩
  simp only [prune_eq, mem_reachable_iff]
  exact ⟨fun _ => live_iff_of_alike h, unreachable_perm h kinds, (alike_sweep h kinds).same⟩

/-- The document `knotted` with other keys first at every level. -/
def reknotted : Document :=
  let pointing (name : String) : Node := (Reference.mk .schemas name).toNode
  ⟨.mapping [("components", .mapping [
      ("headers", .mapping [("X-Named", pointing "named")]),
      ("schemas", .mapping [("named", .null), ("back", pointing "ring"), ("end", pointing "chain"),
        ("self", pointing "self"), ("ring", pointing "back"), ("chain", pointing "end")])]),
    ("paths", .mapping [("/a", .sequence [pointing "chain"])])]⟩

theorem prune_of_same_knotted :
    knotted.root.same reknotted.root = true ∧
      (prune [.schemas] knotted).1.removed =
        [⟨.schemas, "self"⟩, ⟨.schemas, "ring"⟩, ⟨.schemas, "back"⟩] ∧
      (prune [.schemas] reknotted).1.removed =
        [⟨.schemas, "back"⟩, ⟨.schemas, "self"⟩, ⟨.schemas, "ring"⟩] ∧
      (prune [.schemas] knotted).1.removed.Perm (prune [.schemas] reknotted).1.removed ∧
      (prune [.schemas] knotted).2.root.same (prune [.schemas] reknotted).2.root = true := by
  have hsame : knotted.root.same reknotted.root = true := by decide
  have hfirst : knotted.root.WellFormed := by decide
  have hsecond : reknotted.root.WellFormed := by decide
  obtain ⟨-, hremoved, hpruned⟩ := prune_of_same hfirst hsecond hsame [.schemas]
  exact ⟨hsame, by decide, by decide, hremoved, hpruned⟩

end Document
end ApiTidy
