import ApiTidy.Document.Basic
import ApiTidy.Proofs.Address.Atomic
import ApiTidy.Proofs.Text.Split

/-!
What a tree holds after a node was written at an address: the node itself there, and everything as
before under keys that lead elsewhere.
-/
namespace ApiTidy

theorem Address.segments_parse_eq_nil {text : String} :
    (Address.parse text).segments = [] ↔ text = "" := by
  unfold Address.parse
  split
  next h => simp [Address.root, String.toList_eq_nil_iff.1 h]
  next chars h =>
    have hne : text ≠ "" := fun hempty => h (by rw [hempty]; rfl)
    simp [Text.pieces_ne_nil, hne]

namespace Node
variable {address segment : String} {value written : Node} {rest segments : List String}

/-- Writing below a mapping writes below the entry of one key, which may be a new one. -/
theorem place_mapping_eq_ok {entries : Entries Node}
    (h : place address value (segment :: rest) (.mapping entries) = .ok () written) :
    ∃ child, written = .mapping (Entries.insert entries segment child) ∧
      place address value rest ((Entries.get? entries segment).getD (.mapping [])) =
        .ok () child := by
  rw [place_mapping] at h
  obtain ⟨child, hchild, rfl⟩ := Edit.onPart_eq_ok.1 h
  exact ⟨child, rfl, hchild⟩

/-- Writing below a sequence writes below one of its items. -/
theorem place_sequence_eq_ok {items : List Node}
    (h : place address value (segment :: rest) (.sequence items) = .ok () written) :
    ∃ (index : Fin items.length) (child : Node), Address.index? segment = some index.val ∧
      written = .sequence (items.set index child) ∧
      place address value rest (items.get index) = .ok () child := by
  cases hp : Address.place address segment items.length with
  | error fault =>
    rw [place_sequence_of_error hp] at h
    simp at h
  | ok index =>
    rw [place_sequence hp] at h
    obtain ⟨child, hchild, rfl⟩ := Edit.onPart_eq_ok.1 h
    exact ⟨index, child, Address.index?_of_place hp, rfl, hchild⟩

theorem follow_mapping {entries : Entries Node} {child : Node}
    (h : Entries.get? entries segment = some child) :
    follow address (segment :: rest) (.mapping entries) = follow address rest child := by
  simp [follow, step, h]

theorem follow_sequence {items : List Node} {index : Nat}
    (h : Address.index? segment = some index) (hlt : index < items.length) :
    follow address (segment :: rest) (.sequence items) = follow address rest items[index] := by
  simp [follow, step, Address.place_of_index? h hlt]

theorem step_mapping_eq_ok {entries : Entries Node} {child : Node} :
    (Node.mapping entries).step address segment = .ok child ↔
      Entries.get? entries segment = some child := by
  simp only [step]
  cases Entries.get? entries segment <;> simp

theorem follow_cons_eq_ok {tree found : Node} :
    follow address (segment :: rest) tree = .ok found ↔
      ∃ child, tree.step address segment = .ok child ∧ follow address rest child = .ok found := by
  rw [follow]
  cases tree.step address segment <;> simp

/-- What was written is found where it was written. -/
theorem follow_place {tree : Node} (h : place address value segments tree = .ok () written)
    (other : String) : follow other segments written = .ok value := by
  induction segments generalizing tree written with
  | nil =>
    simp only [place] at h
    rw [← (EStateM.Result.ok.inj h).2, follow]
  | cons segment rest ih =>
    cases tree with
    | scalar old => simp [place] at h
    | sequence items =>
      obtain ⟨index, child, hindex, rfl, hchild⟩ := place_sequence_eq_ok h
      have hlt : index.val < (items.set index child).length := by
        rw [List.length_set]
        exact index.isLt
      rw [follow_sequence hindex hlt, List.getElem_set_self]
      exact ih hchild
    | mapping entries =>
      obtain ⟨child, rfl, hchild⟩ := place_mapping_eq_ok h
      rw [follow_mapping (Entries.get?_insert_self entries segment child)]
      exact ih hchild

theorem lookup_set {tree : Node} (h : set address value tree = .ok () written) :
    written.lookup address = .ok value :=
  follow_place h address

/-- The node at the end of a list of keys, with mappings all the way. -/
def under? : List String → Node → Option Node
  | [], node => some node
  | key :: rest, node => (node.field? key).bind fun child => under? rest child

theorem under?_empty {keys : List String} (h : keys ≠ []) : under? keys (.mapping []) = none := by
  cases keys with
  | nil => exact absurd rfl h
  | cons key rest => rfl

/-- Writing at an address changes nothing under keys that lead elsewhere. -/
theorem under?_place {tree : Node} {keys : List String}
    (h : place address value segments tree = .ok () written) (habove : ¬ segments <+: keys)
    (hbelow : ¬ keys <+: segments) : under? keys written = under? keys tree := by
  induction segments generalizing tree written keys with
  | nil => exact absurd (List.nil_prefix) habove
  | cons segment rest ih =>
    cases keys with
    | nil => exact absurd (List.nil_prefix) hbelow
    | cons key keys =>
      cases tree with
      | scalar old => simp [place] at h
      | sequence items =>
        obtain ⟨index, child, -, rfl, -⟩ := place_sequence_eq_ok h
        rfl
      | mapping entries =>
        obtain ⟨child, rfl, hchild⟩ := place_mapping_eq_ok h
        by_cases hkey : key = segment
        · subst hkey
          have hsame : under? keys child =
              under? keys ((Entries.get? entries key).getD (.mapping [])) := by
            apply ih hchild
            · intro hp
              exact habove (List.cons_prefix_cons.2 ⟨rfl, hp⟩)
            · intro hp
              exact hbelow (List.cons_prefix_cons.2 ⟨rfl, hp⟩)
          have hkeys : keys ≠ [] := by
            rintro rfl
            exact hbelow (List.cons_prefix_cons.2 ⟨rfl, List.nil_prefix⟩)
          cases hc : Entries.get? entries key with
          | none => simpa [under?, field?, hc, under?_empty hkeys] using hsame
          | some old => simpa [under?, field?, hc] using hsame
        · simp [under?, field?, Entries.get?_insert_of_ne hkey]

/-- Writing goes where a lookup goes. -/
theorem exists_place_cons {node child : Node} {other : String}
    (hstep : node.step other segment = .ok child)
    (h : ∃ written, place address value rest child = .ok () written) :
    ∃ written, place address value (segment :: rest) node = .ok () written := by
  obtain ⟨written, hw⟩ := h
  cases node with
  | scalar scalar => simp [step] at hstep
  | mapping entries =>
    have hchild := step_mapping_eq_ok.1 hstep
    exact ⟨.mapping (Entries.insert entries segment written), by
      rw [place_mapping, hchild, Option.getD_some, Edit.onPart, hw]⟩
  | sequence items =>
    simp only [step] at hstep
    split at hstep
    next index hindex =>
      obtain rfl := Except.ok.inj hstep
      have hplace : Address.place address segment items.length = .ok index :=
        Address.place_of_index? (Address.index?_of_place hindex) index.isLt
      exact ⟨.sequence (items.set index written), by
        rw [place_sequence hplace, Edit.onPart, hw]⟩
    next => simp at hstep

/-- A node can be written wherever there is one. -/
theorem place_of_follow {tree found : Node} {other : String}
    (h : follow other segments tree = .ok found) :
    ∃ written, place address value segments tree = .ok () written := by
  induction segments generalizing tree with
  | nil => exact ⟨value, rfl⟩
  | cons segment rest ih =>
    obtain ⟨child, hchild, hrest⟩ := follow_cons_eq_ok.1 h
    exact exists_place_cons hchild (ih hrest)

/-- Writing on from a node that a lookup finds is an edit of that node. -/
theorem place_append_of_follow {tree found : Node} {front later : List String} {other : String}
    (h : follow other front tree = .ok found) :
    place address value (front ++ later) tree =
      editAlong address (place address value later) front tree := by
  induction front generalizing tree with
  | nil => rfl
  | cons segment rest ih =>
    obtain ⟨child, hstep, hrest⟩ := follow_cons_eq_ok.1 h
    cases tree with
    | scalar value => simp [step] at hstep
    | mapping entries =>
      have hchild := step_mapping_eq_ok.1 hstep
      rw [List.cons_append, place_mapping, hchild, Option.getD_some]
      simp only [editAlong, hchild, Edit.onPart, ih hrest]
    | sequence items =>
      simp only [step] at hstep
      split at hstep
      next index hindex =>
        obtain rfl := Except.ok.inj hstep
        have hplace : Address.place address segment items.length = .ok index :=
          Address.place_of_index? (Address.index?_of_place hindex) index.isLt
        rw [List.cons_append, place_sequence hplace]
        simp only [editAlong, hplace, Edit.onPart, ih hrest]
      next => simp at hstep

/-- After a node was stored under some keys, another can still be written wherever there was one
before, if the way there does not lead through what was stored. -/
theorem place_of_follow_place {tree stored found new : Node} {keys : List String} {other : String}
    (hstored : place address value keys tree = .ok () stored)
    (hkeys : under? keys stored = some value) (hfound : follow other segments tree = .ok found)
    (hway : keys <+: segments → keys = segments) :
    ∃ written, place other new segments stored = .ok () written := by
  induction keys generalizing tree stored segments with
  | nil =>
    obtain rfl := hway List.nil_prefix
    exact ⟨new, rfl⟩
  | cons key keys ih =>
    cases segments with
    | nil => exact ⟨new, rfl⟩
    | cons segment rest =>
      obtain ⟨next, hnext, hrest⟩ := follow_cons_eq_ok.1 hfound
      cases tree with
      | scalar scalar => simp [place] at hstored
      | sequence items =>
        obtain ⟨_, _, -, rfl, -⟩ := place_sequence_eq_ok hstored
        simp [under?, field?] at hkeys
      | mapping entries =>
        obtain ⟨child, rfl, hchild⟩ := place_mapping_eq_ok hstored
        have hold := step_mapping_eq_ok.1 hnext
        by_cases hkey : segment = key
        · subst hkey
          have hbelow : keys <+: rest → keys = rest := by
            intro hp
            exact (List.cons.inj (hway (List.cons_prefix_cons.2 ⟨rfl, hp⟩))).2
          have hunder : under? keys child = some value := by
            simpa [under?, field?] using hkeys
          rw [hold, Option.getD_some] at hchild
          have hself : (mapping (Entries.insert entries segment child)).step other segment =
              .ok child := step_mapping_eq_ok.2 (Entries.get?_insert_self entries segment child)
          exact exists_place_cons hself (ih hchild hunder hrest hbelow)
        · have hother : (mapping (Entries.insert entries key child)).step other segment =
              .ok next := step_mapping_eq_ok.2 ((Entries.get?_insert_of_ne hkey _ _).trans hold)
          exact exists_place_cons hother (place_of_follow hrest)

end Node

namespace Document

/-- Where a component stands in the tree. -/
def componentKeys (reference : Reference) : List String :=
  [componentsKey, reference.kind.key, reference.name]

theorem target?_eq_under? (doc : Document) (reference : Reference) :
    doc.target? reference = doc.root.under? (componentKeys reference) := by
  simp only [target?, component?, components?, region?, componentKeys, Node.under?]
  cases doc.root.field? componentsKey with
  | none => rfl
  | some categories =>
    cases categories with
    | scalar value => rfl
    | sequence items => rfl
    | mapping entries =>
      simp only [Option.bind_some, Node.entries?, Node.field?]
      cases Entries.get? entries reference.kind.key with
      | none => rfl
      | some category => cases category <;> simp [Node.entries?]

end Document
end ApiTidy
