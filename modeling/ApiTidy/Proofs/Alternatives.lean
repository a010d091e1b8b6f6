import ApiTidy.Alternatives
import ApiTidy.Proofs.Change

/-!
Removing repeated references, as a function of a node and the key it stands under. Doing it twice is
doing it once, and the count is zero exactly if nothing was removed.
-/
namespace ApiTidy

theorem Node.eq_ofBool {node : Node} {value : Bool} (h : node.bool? = some value) :
    node = .ofBool value := by
  cases node with
  | sequence items => simp [bool?] at h
  | mapping entries => simp [bool?] at h
  | scalar scalar => cases scalar <;> simp_all [bool?, ofBool]

namespace Alternatives

theorem dropRepeated_sublist (seen : List String) (items : List Node) :
    (dropRepeated seen items).Sublist items := by
  induction items generalizing seen with
  | nil => exact List.Sublist.refl []
  | cons item rest ih =>
    rw [dropRepeated]
    split
    · exact (ih seen).cons_cons item
    · split
      · exact (ih seen).cons item
      · exact (ih _).cons_cons item

theorem dropRepeated_dropRepeated (seen : List String) (items : List Node) :
    dropRepeated seen (dropRepeated seen items) = dropRepeated seen items := by
  induction items generalizing seen with
  | nil => rfl
  | cons item rest ih =>
    rw [dropRepeated]
    split
    next hitem => simp [dropRepeated, hitem, ih]
    next pointer hitem =>
      split
      next hseen => exact ih seen
      next hseen =>
        have hnew : pointer ∉ seen := by simpa using hseen
        simp [dropRepeated, hitem, hnew, ih]

/-- A change of the items that keeps what they refer to may come before or after. -/
theorem dropRepeated_map {g : Node → Node} (h : ∀ item, (g item).refPointer? = item.refPointer?)
    (seen : List String) (items : List Node) :
    dropRepeated seen (items.map g) = (dropRepeated seen items).map g := by
  induction items generalizing seen with
  | nil => rfl
  | cons item rest ih =>
    rw [List.map_cons, dropRepeated, dropRepeated, h]
    cases item.refPointer? with
    | none => simp [ih]
    | some pointer =>
      by_cases hseen : pointer ∈ seen <;> simp [hseen, ih]

/-- What the value of a key becomes. -/
def dedupeValue (key : String) : Node → Node
  | .sequence items =>
    .sequence (if isAlternation key then (dedupeList [] items).1 else (dedupeItems items).1)
  | value => (dedupe value).1

theorem dedupeItems_fst (items : List Node) :
    (dedupeItems items).1 = items.map fun item => (dedupe item).1 := by
  induction items with
  | nil => rfl
  | cons item rest ih => simp [dedupeItems, ih]

theorem dedupeList_fst (seen : List String) (items : List Node) :
    (dedupeList seen items).1 = (dropRepeated seen items).map fun item => (dedupe item).1 := by
  induction items generalizing seen with
  | nil => rfl
  | cons item rest ih =>
    rw [dedupeList, dropRepeated]
    cases item.refPointer? with
    | none => simp [ih]
    | some pointer => by_cases hseen : pointer ∈ seen <;> simp [hseen, ih]

theorem dedupeEntries_fst (entries : Entries Node) :
    (dedupeEntries entries).1 = Entries.mapValues dedupeValue entries := by
  induction entries with
  | nil => rfl
  | cons entry rest ih =>
    obtain ⟨key, value⟩ := entry
    cases value with
    | scalar value => simp [dedupeEntries, dedupeValue, ih]
    | mapping entries => simp [dedupeEntries, dedupeValue, ih]
    | sequence items =>
      cases halternation : isAlternation key <;>
        simp [dedupeEntries, dedupeValue, halternation, ih]

theorem dedupe_fst (node : Node) : (dedupe node).1 = dedupeValue "" node := by
  cases node <;> rfl

@[simp] theorem dedupeValue_scalar (key : String) (value : Scalar) :
    dedupeValue key (.scalar value) = .scalar value := rfl

@[simp] theorem dedupeValue_sequence (key : String) (items : List Node) :
    dedupeValue key (.sequence items) =
      .sequence ((if isAlternation key then dropRepeated [] items else items).map
        (dedupeValue "")) := by
  have heach : (fun item => (dedupe item).1) = dedupeValue "" := funext dedupe_fst
  rw [dedupeValue, dedupeList_fst, dedupeItems_fst, heach]
  split <;> rfl

@[simp] theorem dedupeValue_mapping (key : String) (entries : Entries Node) :
    dedupeValue key (.mapping entries) = .mapping (Entries.mapValues dedupeValue entries) :=
  congrArg Node.mapping (dedupeEntries_fst entries)

@[simp] theorem bool?_dedupeValue (key : String) (node : Node) :
    (dedupeValue key node).bool? = node.bool? := by
  cases node <;> simp [Node.bool?]

theorem refPointer?_dedupeValue (key : String) (node : Node) :
    (dedupeValue key node).refPointer? = node.refPointer? := by
  cases node with
  | scalar value => rfl
  | sequence items => simp [Node.refPointer?, Node.field?]
  | mapping entries =>
    rw [dedupeValue_mapping]
    exact Node.refPointer?_mapping (fun value => by cases value <;> simp [Node.string?])
      (Entries.get?_mapValues dedupeValue entries Node.refKey)

theorem dedupeValue_dedupeValue (key : String) (node : Node) :
    dedupeValue key (dedupeValue key node) = dedupeValue key node := by
  induction node using Node.induct generalizing key with
  | scalar value => rfl
  | sequence items ih =>
    have hitems : ∀ kept : List Node, kept.Sublist items →
        kept.map (dedupeValue "" ∘ dedupeValue "") = kept.map (dedupeValue "") :=
      fun kept hkept => List.map_congr_left fun item hmem => ih item (hkept.subset hmem) ""
    rw [dedupeValue_sequence, dedupeValue_sequence]
    split
    · rw [dropRepeated_map (refPointer?_dedupeValue ""), dropRepeated_dropRepeated, List.map_map,
        hitems _ (dropRepeated_sublist [] items)]
    · rw [List.map_map, hitems items (List.Sublist.refl items)]
  | mapping entries ih =>
    rw [dedupeValue_mapping, dedupeValue_mapping, Entries.mapValues_mapValues]
    exact congrArg _ (Entries.mapValues_congr fun entry hmem => ih entry hmem entry.1)

/-- The counted change of the value of a key. -/
def dedupeAt (key : String) : Change Node
  | .sequence items =>
    let (changed, count) := if isAlternation key then dedupeList [] items else dedupeItems items
    (.sequence changed, count)
  | value => dedupe value

theorem dedupe_eq_dedupeAt : dedupe = dedupeAt "" := by
  funext node
  cases node <;> rfl

theorem dedupeItems_eq_onItems (items : List Node) :
    dedupeItems items = Change.onItems dedupe items := by
  induction items with
  | nil => rfl
  | cons item rest ih => simp only [dedupeItems, Change.onItems, ih]

theorem dedupeEntries_eq_onValues (entries : Entries Node) :
    dedupeEntries entries = Change.onValues dedupeAt entries := by
  induction entries with
  | nil => rfl
  | cons entry rest ih =>
    obtain ⟨key, value⟩ := entry
    cases value <;> simp only [dedupeEntries, dedupeAt, Change.onValues, ih]

/-- An item that is removed counts, and then the list gets shorter. -/
theorem exact_dedupeList {items : List Node} (h : ∀ item ∈ items, Change.Exact dedupe item)
    (seen : List String) : Change.Exact (dedupeList seen) items := by
  induction items generalizing seen with
  | nil => exact ⟨fun _ => rfl, fun _ => rfl⟩
  | cons item rest ih =>
    obtain ⟨hitem, hrest⟩ := List.forall_mem_cons.1 h
    unfold Change.Exact at hitem ih ⊢
    rw [dedupeList]
    split
    next =>
      have hshort : (dedupeList seen rest).1.length ≤ rest.length := by
        rw [dedupeList_fst, List.length_map]
        exact (dropRepeated_sublist seen rest).length_le
      constructor
      · intro hcount
        cases hcount
      · intro hsame
        have hlength : (dedupeList seen rest).1.length = rest.length + 1 :=
          congrArg List.length hsame
        omega
    next => simp only [Nat.add_eq_zero_iff, hitem, ih hrest, List.cons.injEq]

theorem exact_dedupeAt (key : String) (node : Node) : Change.Exact (dedupeAt key) node := by
  induction node using Node.induct generalizing key with
  | scalar value => exact ⟨fun _ => rfl, fun _ => rfl⟩
  | sequence items ih =>
    have hitems : ∀ item ∈ items, Change.Exact dedupe item := by
      intro item hmem
      rw [dedupe_eq_dedupeAt]
      exact ih item hmem ""
    have hlist := exact_dedupeList hitems []
    have hplain := Change.exact_onItems hitems
    rw [← funext dedupeItems_eq_onItems] at hplain
    unfold Change.Exact at hlist hplain ⊢
    simp only [dedupeAt, Node.sequence.injEq]
    split
    · exact hlist
    · exact hplain
  | mapping entries ih =>
    have hentries := Change.exact_onValues fun entry hmem => ih entry hmem entry.1
    unfold Change.Exact at hentries ⊢
    simp only [dedupeAt, dedupe, dedupeEntries_eq_onValues, Node.mapping.injEq]
    exact hentries

theorem exact_dedupe (node : Node) : Change.Exact dedupe node := by
  rw [dedupe_eq_dedupeAt]
  exact exact_dedupeAt "" node

theorem settles_dedupe : Change.Settles dedupe := by
  apply Change.settles_of_exact exact_dedupe
  intro node
  rw [dedupe_fst, dedupe_fst, dedupeValue_dedupeValue]

end Alternatives
end ApiTidy
