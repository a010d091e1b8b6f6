import ApiTidy.Proofs.Entries
import ApiTidy.Node.Basic

/-!
Induction over trees, and changes of one value of a mapping or of its entries.
-/
namespace ApiTidy.Node

/-- Induction over a tree: a property of all items or values is one of the node that holds them. -/
theorem induct {motive : Node → Prop} (scalar : ∀ value, motive (.scalar value))
    (sequence : ∀ items, (∀ item ∈ items, motive item) → motive (.sequence items))
    (mapping : ∀ entries, (∀ entry ∈ entries, motive entry.2) → motive (.mapping entries))
    (node : Node) : motive node :=
  @Node.rec motive (fun items => ∀ item ∈ items, motive item)
    (fun entries => ∀ entry ∈ entries, motive entry.2) (fun entry => motive entry.2)
    scalar sequence mapping (fun _ hmem => nomatch hmem)
    (fun _ _ hitem hrest => List.forall_mem_cons.2 ⟨hitem, hrest⟩)
    (fun _ hmem => nomatch hmem)
    (fun _ _ hentry hrest => List.forall_mem_cons.2 ⟨hentry, hrest⟩)
    (fun _ _ hvalue => hvalue) node

theorem wellFormedEntries_iff {entries : Entries Node} :
    WellFormedEntries entries ↔ ∀ entry ∈ entries, entry.2.WellFormed := by
  induction entries with
  | nil => simp [WellFormedEntries]
  | cons entry rest ih => rw [WellFormedEntries, ih, List.forall_mem_cons]

theorem wellFormed_sequence {items : List Node} :
    (Node.sequence items).WellFormed ↔ ∀ item ∈ items, item.WellFormed := by
  show WellFormedItems items ↔ _
  induction items with
  | nil => simp [WellFormedItems]
  | cons item rest ih => rw [WellFormedItems, ih, List.forall_mem_cons]

theorem wellFormed_mapping {entries : Entries Node} :
    (Node.mapping entries).WellFormed ↔
      Entries.Distinct entries ∧ ∀ entry ∈ entries, entry.2.WellFormed := by
  show Entries.Distinct entries ∧ WellFormedEntries entries ↔ _
  rw [wellFormedEntries_iff]

mutual

/-- Whether a key occurs twice can be seen from the tree. -/
def decideWellFormed : (node : Node) → Decidable node.WellFormed
  | .scalar _ => isTrue trivial
  | .sequence items => decideWellFormedItems items
  | .mapping entries =>
    have : Decidable (Entries.Distinct entries) :=
      inferInstanceAs (Decidable (Entries.keys entries).Nodup)
    have := decideWellFormedEntries entries
    inferInstanceAs (Decidable (Entries.Distinct entries ∧ WellFormedEntries entries))

def decideWellFormedItems : (items : List Node) → Decidable (WellFormedItems items)
  | [] => isTrue trivial
  | item :: rest =>
    have := item.decideWellFormed
    have := decideWellFormedItems rest
    inferInstanceAs (Decidable (item.WellFormed ∧ WellFormedItems rest))

def decideWellFormedEntries :
    (entries : List (String × Node)) → Decidable (WellFormedEntries entries)
  | [] => isTrue trivial
  | (_, value) :: rest =>
    have := value.decideWellFormed
    have := decideWellFormedEntries rest
    inferInstanceAs (Decidable (value.WellFormed ∧ WellFormedEntries rest))

end

instance (node : Node) : Decidable node.WellFormed := node.decideWellFormed

theorem WellFormed.field? {node value : Node} {key : String} (hnode : node.WellFormed)
    (h : node.field? key = some value) : value.WellFormed := by
  cases node with
  | scalar _ => simp [Node.field?] at h
  | sequence _ => simp [Node.field?] at h
  | mapping entries =>
    exact (wellFormed_mapping.1 hnode).2 (key, value) (Entries.mem_of_get? h)

theorem bind_entries?_eq_some {node : Option Node} {entries : Entries Node} :
    node.bind entries? = some entries ↔ node = some (.mapping entries) := by
  cases node with
  | none => simp
  | some node => cases node <;> simp [entries?]

theorem field?_of_entries?_none {node : Node} (h : node.entries? = none) (key : String) :
    node.field? key = none := by
  cases node with
  | scalar value => rfl
  | sequence items => rfl
  | mapping entries => simp [entries?] at h

/-- Two mappings refer to the same if one has the other's strings. -/
theorem refPointer?_mapping {old new : Entries Node} {f : Node → Node}
    (hf : ∀ value, (f value).string? = value.string?)
    (hget : Entries.get? new refKey = (Entries.get? old refKey).map f) :
    (Node.mapping new).refPointer? = (Node.mapping old).refPointer? := by
  simp only [refPointer?, field?, hget]
  cases Entries.get? old refKey with
  | none => rfl
  | some value => exact hf value

/-- Change the value under a key of a mapping, if there is one. -/
def modifyField (f : Node → Node) (key : String) : Node → Node
  | .mapping entries => .mapping (Entries.modify f key entries)
  | other => other

/-- Change the entries of a mapping. -/
def onEntries (f : Entries Node → Entries Node) : Node → Node
  | .mapping entries => .mapping (f entries)
  | other => other

@[simp] theorem modifyField_mapping (f : Node → Node) (key : String) (entries : Entries Node) :
    modifyField f key (.mapping entries) = .mapping (Entries.modify f key entries) := rfl

@[simp] theorem modifyField_sequence (f : Node → Node) (key : String) (items : List Node) :
    modifyField f key (.sequence items) = .sequence items := rfl

@[simp] theorem modifyField_scalar (f : Node → Node) (key : String) (value : Scalar) :
    modifyField f key (.scalar value) = .scalar value := rfl

@[simp] theorem onEntries_mapping (f : Entries Node → Entries Node) (entries : Entries Node) :
    onEntries f (.mapping entries) = .mapping (f entries) := rfl

@[simp] theorem onEntries_sequence (f : Entries Node → Entries Node) (items : List Node) :
    onEntries f (.sequence items) = .sequence items := rfl

@[simp] theorem onEntries_scalar (f : Entries Node → Entries Node) (value : Scalar) :
    onEntries f (.scalar value) = .scalar value := rfl

@[simp] theorem field?_modifyField_self (f : Node → Node) (key : String) (node : Node) :
    (node.modifyField f key).field? key = (node.field? key).map f := by
  cases node <;> simp [modifyField, field?]

theorem field?_modifyField_of_ne {key other : String} (h : other ≠ key) (f : Node → Node)
    (node : Node) : (node.modifyField f key).field? other = node.field? other := by
  cases node <;> simp [modifyField, field?, Entries.get?_modify_of_ne h]

theorem modifyField_modifyField (f g : Node → Node) (key : String) (node : Node) :
    (node.modifyField f key).modifyField g key = node.modifyField (g ∘ f) key := by
  cases node <;> simp [modifyField, Entries.modify_modify]

theorem modifyField_comm {key other : String} (h : key ≠ other) (f g : Node → Node) (node : Node) :
    (node.modifyField f key).modifyField g other =
      (node.modifyField g other).modifyField f key := by
  cases node <;> simp [modifyField, Entries.modify_comm h]

theorem modifyField_congr {node : Node} {key : String} {f g : Node → Node}
    (h : ∀ value, node.field? key = some value → f value = g value) :
    node.modifyField f key = node.modifyField g key := by
  cases node with
  | mapping entries => exact congrArg _ (Entries.modify_congr h)
  | sequence items => rfl
  | scalar value => rfl

theorem WellFormed.modifyField {f : Node → Node} (hf : ∀ value, value.WellFormed →
    (f value).WellFormed) (key : String) {node : Node} (hnode : node.WellFormed) :
    (node.modifyField f key).WellFormed := by
  cases node with
  | scalar _ => exact hnode
  | sequence _ => exact hnode
  | mapping entries =>
    obtain ⟨hkeys, hvalues⟩ := wellFormed_mapping.1 hnode
    refine wellFormed_mapping.2 ⟨?_, fun entry hmem => ?_⟩
    · rw [Entries.Distinct, Entries.keys_modify]
      exact hkeys
    · rcases Entries.mem_modify hmem with hold | ⟨value, hvalue, rfl⟩
      · exact hvalues entry hold
      · exact hf value (hvalues _ hvalue)

theorem WellFormed.insert {entries : Entries Node} (h : (Node.mapping entries).WellFormed)
    (key : String) {value : Node} (hvalue : value.WellFormed) :
    (Node.mapping (Entries.insert entries key value)).WellFormed := by
  obtain ⟨hkeys, hvalues⟩ := wellFormed_mapping.1 h
  refine wellFormed_mapping.2 ⟨hkeys.insert key value, fun entry hmem => ?_⟩
  rcases Entries.mem_insert hmem with rfl | hold
  · exact hvalue
  · exact hvalues entry hold

theorem WellFormed.filter {entries : Entries Node} (p : String × Node → Bool)
    (h : (Node.mapping entries).WellFormed) : (Node.mapping (entries.filter p)).WellFormed := by
  obtain ⟨hkeys, hvalues⟩ := wellFormed_mapping.1 h
  refine wellFormed_mapping.2 ⟨?_, fun entry hmem => hvalues entry (List.mem_filter.1 hmem).1⟩
  exact hkeys.sublist (List.filter_sublist.map _)

theorem wellFormed_empty : (mapping []).WellFormed :=
  wellFormed_mapping.2 ⟨List.nodup_nil, by simp⟩

theorem WellFormed.getD_get? (h : (mapping entries).WellFormed) (key : String) :
    ((Entries.get? entries key).getD (.mapping [])).WellFormed := by
  cases hget : Entries.get? entries key with
  | none => exact wellFormed_empty
  | some child => exact (wellFormed_mapping.1 h).2 _ (Entries.mem_of_get? hget)

theorem WellFormed.set {item : Node} (h : (sequence items).WellFormed) (hitem : item.WellFormed)
    (index : Nat) : (sequence (items.set index item)).WellFormed := by
  refine wellFormed_sequence.2 fun other hmem => ?_
  rcases List.mem_or_eq_of_mem_set hmem with hold | rfl
  · exact wellFormed_sequence.1 h other hold
  · exact hitem

theorem bind_entries?_map_onEntries (f : Entries Node → Entries Node) (node : Option Node) :
    (node.map (onEntries f)).bind entries? = (node.bind entries?).map f := by
  cases node with
  | none => rfl
  | some node => cases node <;> rfl

theorem modifyField_id (key : String) (node : Node) : node.modifyField id key = node := by
  cases node with
  | mapping entries =>
    cases hv : Entries.get? entries key with
    | none => rw [modifyField_mapping, Entries.modify_of_get?_none hv]
    | some value =>
      have hstore := Entries.insert_eq_modify hv id
      rw [modifyField_mapping, ← hstore, id, Entries.insert_of_get? hv]
  | sequence items => rfl
  | scalar value => rfl

theorem modifyField_eq_self {f : Node → Node} {key : String} {node : Node}
    (h : ∀ value, node.field? key = some value → f value = value) :
    node.modifyField f key = node :=
  (modifyField_congr h).trans (modifyField_id key node)

theorem onEntries_eq_self {f : Entries Node → Entries Node} {node : Node}
    (h : ∀ entries, node = .mapping entries → f entries = entries) : node.onEntries f = node := by
  cases node with
  | scalar value => rfl
  | sequence items => rfl
  | mapping entries => exact congrArg Node.mapping (h entries rfl)

theorem onEntries_id : onEntries id = id := by
  funext node
  cases node <;> rfl

end ApiTidy.Node

namespace ApiTidy

/-- Whether a scalar is no float, nor an integer that exceeds a word of sixty-four bits. -/
def Scalar.Integral : Scalar → Prop
  | .number (.integer value) => Number.fits value = true
  | .number (.float _) => False
  | .null | .bool _ | .string _ => True

/-- All numbers of the tree are integers that fit a word of sixty-four bits, signed or unsigned. -/
inductive Node.Integral : Node → Prop
  | scalar {value : Scalar} : value.Integral → Integral (.scalar value)
  | sequence {items : List Node} : (∀ item ∈ items, Integral item) → Integral (.sequence items)
  | mapping {entries : Entries Node} :
      (∀ entry ∈ entries, Integral entry.2) → Integral (.mapping entries)

@[simp] theorem Node.integral_scalar {value : Scalar} :
    (Node.scalar value).Integral ↔ value.Integral := by
  constructor
  · intro h
    cases h with
    | scalar hvalue => exact hvalue
  · exact .scalar

@[simp] theorem Node.integral_sequence {items : List Node} :
    (Node.sequence items).Integral ↔ ∀ item ∈ items, item.Integral := by
  constructor
  · intro h
    cases h with
    | sequence hitems => exact hitems
  · exact .sequence

@[simp] theorem Node.integral_mapping {entries : Entries Node} :
    (Node.mapping entries).Integral ↔ ∀ entry ∈ entries, entry.2.Integral := by
  constructor
  · intro h
    cases h with
    | mapping hvalues => exact hvalues
  · exact .mapping

end ApiTidy
