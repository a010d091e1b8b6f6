import ApiTidy.Change
import ApiTidy.Proofs.Node

/-!
What the combinators of counted changes make of a value, and what a count of zero says: an honest
change counts nothing only where it changes nothing, and a change that settles finds nothing to do
in what it has made.
-/
namespace ApiTidy.Change
variable {α : Type}

@[simp] theorem andThen_fst (first second : Change α) (value : α) :
    (andThen first second value).1 = (second (first value).1).1 := rfl

@[simp] theorem onValues_fst (change : String → Change α) (entries : Entries α) :
    (onValues change entries).1 =
      Entries.mapValues (fun key value => (change key value).1) entries := by
  induction entries with
  | nil => rfl
  | cons entry rest ih => simp [onValues, ih]

@[simp] theorem inMapping_fst (change : Change (Entries Node)) (node : Node) :
    (inMapping change node).1 = node.onEntries fun entries => (change entries).1 := by
  cases node <;> rfl

theorem atKey_fst (key : String) (change : Change α) (entries : Entries α) :
    (atKey key change entries).1 = Entries.modify (fun value => (change value).1) key entries := by
  unfold atKey
  cases hv : Entries.get? entries key with
  | none => exact (Entries.modify_of_get?_none hv _).symm
  | some value => exact Entries.insert_eq_modify hv fun value => (change value).1

@[simp] theorem atField_fst (key : String) (change : Change Node) (node : Node) :
    (atField key change node).1 = node.modifyField (fun value => (change value).1) key := by
  cases node with
  | mapping entries => exact congrArg Node.mapping (atKey_fst key change entries)
  | sequence items => rfl
  | scalar value => rfl

/-- A change that keeps a value and counts nothing. -/
def Still (change : Change α) (value : α) : Prop := change value = (value, 0)

theorem Still.fst {change : Change α} {value : α} (h : Still change value) :
    (change value).1 = value := congrArg Prod.fst h

section Still
variable {change second : Change α} {value : α}

theorem still_andThen (hfirst : Still change value) (hsecond : Still second value) :
    Still (andThen change second) value := by
  unfold Still andThen at *
  rw [hfirst]
  simp only [hsecond, Nat.zero_add]

theorem still_onValues {each : String → Change α} {entries : Entries α}
    (h : ∀ entry ∈ entries, Still (each entry.1) entry.2) : Still (onValues each) entries := by
  induction entries with
  | nil => rfl
  | cons entry rest ih =>
    obtain ⟨hentry, hrest⟩ := List.forall_mem_cons.1 h
    have htail := ih hrest
    unfold Still at hentry htail ⊢
    simp only [onValues, hentry, htail, Nat.add_zero]

theorem still_inMapping {change : Change (Entries Node)} {node : Node}
    (h : ∀ entries, node = .mapping entries → Still change entries) :
    Still (inMapping change) node := by
  cases node with
  | scalar value => rfl
  | sequence items => rfl
  | mapping entries =>
    have hentries := h entries rfl
    unfold Still at hentries ⊢
    simp only [inMapping, hentries]

theorem still_inSequence {change : Change (List Node)} {node : Node}
    (h : ∀ items, node = .sequence items → Still change items) :
    Still (inSequence change) node := by
  cases node with
  | scalar value => rfl
  | mapping entries => rfl
  | sequence items =>
    have hitems := h items rfl
    unfold Still at hitems ⊢
    simp only [inSequence, hitems]

theorem still_atField {change : Change Node} {key : String} {node : Node}
    (h : ∀ value, node.field? key = some value → Still change value) :
    Still (atField key change) node := by
  apply still_inMapping
  intro entries hentries
  subst hentries
  unfold Still atKey
  cases hvalue : Entries.get? entries key with
  | none => rfl
  | some value =>
    have hstill := h value hvalue
    unfold Still at hstill
    simp only [hstill, Entries.insert_of_get? hvalue]

end Still

/-- A change that counts nothing only where it changes nothing. -/
def Honest (change : Change α) : Prop := ∀ value, (change value).2 = 0 → (change value).1 = value

theorem honest_keep : Honest (keep : Change α) := fun _ _ => rfl

theorem Honest.andThen {first second : Change α} (hfirst : Honest first) (hsecond : Honest second) :
    Honest (andThen first second) := by
  intro value hcount
  obtain ⟨hone, htwo⟩ := Nat.add_eq_zero_iff.1 hcount
  exact (hsecond _ htwo).trans (hfirst value hone)

theorem honest_onValues {change : String → Change α} (h : ∀ key, Honest (change key)) :
    Honest (onValues change) := by
  intro entries hcount
  induction entries with
  | nil => rfl
  | cons entry rest ih =>
    obtain ⟨hentry, hrest⟩ := Nat.add_eq_zero_iff.1 hcount
    have hvalue := h entry.1 entry.2 hentry
    have htail := ih hrest
    simp only [onValues, hvalue, htail]

theorem Honest.inMapping {change : Change (Entries Node)} (h : Honest change) :
    Honest (inMapping change) := by
  intro node hcount
  cases node with
  | scalar value => rfl
  | sequence items => rfl
  | mapping entries => exact congrArg Node.mapping (h entries hcount)

theorem Honest.inSequence {change : Change (List Node)} (h : Honest change) :
    Honest (inSequence change) := by
  intro node hcount
  cases node with
  | scalar value => rfl
  | mapping entries => rfl
  | sequence items => exact congrArg Node.sequence (h items hcount)

theorem Honest.atField {change : Change Node} (h : Honest change) (key : String) :
    Honest (atField key change) := by
  apply Honest.inMapping
  intro entries hcount
  unfold atKey at hcount ⊢
  cases hvalue : Entries.get? entries key with
  | none => rfl
  | some value =>
    rw [hvalue] at hcount
    have hkept := h value hcount
    simp only [hkept, Entries.insert_of_get? hvalue]

theorem keepItems_snd (wanted : α → Bool) (items : List α) :
    (keepItems wanted items).2 = items.countP fun item => !wanted item := by
  have hsplit : items.length = items.countP wanted + items.countP fun item => !wanted item := by
    simpa using List.length_eq_countP_add_countP wanted
  simp only [keepItems, ← List.countP_eq_length_filter]
  omega

theorem honest_keepItems (wanted : α → Bool) : Honest (keepItems wanted) := by
  intro items hcount
  have hle : (items.filter wanted).length ≤ items.length := List.length_filter_le wanted items
  have hdropped : items.length - (items.filter wanted).length = 0 := hcount
  have hall : (items.filter wanted).length = items.length := by omega
  exact List.filter_eq_self.2 (List.length_filter_eq_length_iff.1 hall)

/-- A change that finds nothing to do in what it has made. -/
def Settles (change : Change α) : Prop := ∀ value, Still change (change value).1

theorem settles_keep : Settles (keep : Change α) := fun _ => rfl

theorem settles_onValues {change : String → Change α} (h : ∀ key, Settles (change key)) :
    Settles (onValues change) := by
  intro entries
  rw [onValues_fst]
  apply still_onValues
  intro entry hmem
  obtain ⟨old, -, rfl⟩ := List.mem_map.1 hmem
  exact h old.1 old.2

theorem Settles.inMapping {change : Change (Entries Node)} (h : Settles change) :
    Settles (inMapping change) := by
  intro node
  apply still_inMapping
  intro entries hentries
  cases node with
  | scalar value => cases hentries
  | sequence items => cases hentries
  | mapping old => exact Node.mapping.inj hentries ▸ h old

theorem Settles.inSequence {change : Change (List Node)} (h : Settles change) :
    Settles (inSequence change) := by
  intro node
  apply still_inSequence
  intro items hitems
  cases node with
  | scalar value => cases hitems
  | mapping entries => cases hitems
  | sequence old => exact Node.sequence.inj hitems ▸ h old

theorem Settles.atField {change : Change Node} (h : Settles change) (key : String) :
    Settles (atField key change) := by
  intro node
  apply still_atField
  intro value hvalue
  rw [atField_fst, Node.field?_modifyField_self] at hvalue
  obtain ⟨old, -, rfl⟩ := Option.map_eq_some_iff.1 hvalue
  exact h old

theorem settles_keepItems (wanted : α → Bool) : Settles (keepItems wanted) := by
  intro items
  have hagain : (items.filter wanted).filter wanted = items.filter wanted := by
    rw [List.filter_filter]
    simp only [Bool.and_self]
  unfold Still keepItems
  simp only [hagain, Nat.sub_self]

/-- A change that counts nothing of a value exactly if it keeps it. -/
def Exact (change : Change α) (value : α) : Prop :=
  (change value).2 = 0 ↔ (change value).1 = value

theorem honest_of_exact {change : Change α} (h : ∀ value, Exact change value) : Honest change :=
  fun value => (h value).1

/-- With exact counts a change settles if a second one alters nothing. -/
theorem settles_of_exact {change : Change α} (h : ∀ value, Exact change value)
    (hagain : ∀ value, (change (change value).1).1 = (change value).1) : Settles change :=
  fun value => Prod.ext (hagain value) ((h _).2 (hagain value))

theorem exact_onItems {change : Change α} {items : List α}
    (h : ∀ item ∈ items, Exact change item) : Exact (onItems change) items := by
  induction items with
  | nil => exact ⟨fun _ => rfl, fun _ => rfl⟩
  | cons item rest ih =>
    obtain ⟨hitem, hrest⟩ := List.forall_mem_cons.1 h
    have htail := ih hrest
    unfold Exact at hitem htail ⊢
    simp only [onItems, Nat.add_eq_zero_iff, hitem, htail, List.cons.injEq]

theorem exact_onValues {change : String → Change α} {entries : Entries α}
    (h : ∀ entry ∈ entries, Exact (change entry.1) entry.2) : Exact (onValues change) entries := by
  induction entries with
  | nil => exact ⟨fun _ => rfl, fun _ => rfl⟩
  | cons entry rest ih =>
    obtain ⟨hentry, hrest⟩ := List.forall_mem_cons.1 h
    have htail := ih hrest
    unfold Exact at hentry htail ⊢
    simp only [onValues, Nat.add_eq_zero_iff, hentry, htail, List.cons.injEq, Prod.ext_iff,
      true_and]

end ApiTidy.Change
