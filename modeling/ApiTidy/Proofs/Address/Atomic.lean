import Mathlib.Data.List.InsertIdx
import ApiTidy.Address.Edit
import ApiTidy.Proofs.Edit
import ApiTidy.Proofs.Entries

/-!
Edits by address that fail leave the tree as it was, with the order of keys and items. Writing may
create mappings on the way down, but below a new mapping nothing can fail; and a node that could
not be moved goes back to the very place it was taken from.
-/
namespace ApiTidy

theorem Address.index?_of_place {address segment : String} {length : Nat} {index : Fin length}
    (h : Address.place address segment length = .ok index) :
    Address.index? segment = some index.val := by
  unfold Address.place at h
  split at h
  next => simp at h
  next found hf =>
    split at h
    · rw [hf, ← Except.ok.inj h]
    · simp at h

theorem Address.place_of_index? {address segment : String} {length index : Nat}
    (h : Address.index? segment = some index) (hlt : index < length) :
    Address.place address segment length = .ok ⟨index, hlt⟩ := by
  simp [Address.place, h, hlt]

namespace Node
variable {α : Type} {address : String}

/-- An edit below a sequence takes place at the item that the segment denotes. -/
theorem editAlong_sequence {segment : String} {items : List Node} {index : Nat}
    (hi : Address.index? segment = some index) (hlt : index < items.length)
    (edit : Edit AddressError Node α) (rest : List String) :
    editAlong address edit (segment :: rest) (.sequence items) =
      Edit.onPart items[index] (fun changed => .sequence (items.set index changed))
        (editAlong address edit rest) := by
  unfold editAlong
  rw [Address.place_of_index? hi hlt]
  rfl

theorem editAlong_atomic {edit : Edit AddressError Node α} (hedit : edit.Atomic)
    (segments : List String) : (editAlong address edit segments).Atomic := by
  induction segments with
  | nil =>
    intro tree fault changed h
    exact hedit h
  | cons segment rest ih =>
    intro tree fault changed h
    cases tree with
    | scalar value => exact (EStateM.Result.error.inj h).2.symm
    | sequence items =>
      unfold editAlong at h
      split at h
      next => exact (EStateM.Result.error.inj h).2.symm
      next index hp =>
        have hstored := ih.onPart h
        simpa using hstored
    | mapping entries =>
      unfold editAlong at h
      split at h
      next => exact (EStateM.Result.error.inj h).2.symm
      next child hc =>
        have hstored := ih.onPart h
        rwa [Entries.insert_of_get? hc] at hstored

/-- Writing below a mapping writes below the value of a key, which is an empty mapping if the key is
new. -/
theorem place_mapping (address : String) (value : Node) (segment : String) (rest : List String)
    (entries : Entries Node) :
    place address value (segment :: rest) (.mapping entries) =
      Edit.onPart ((Entries.get? entries segment).getD (.mapping []))
        (fun changed => .mapping (Entries.insert entries segment changed))
        (place address value rest) := by
  cases rest <;> rfl

theorem place_sequence {segment : String} {items : List Node} {index : Fin items.length}
    (h : Address.place address segment items.length = .ok index) (value : Node)
    (rest : List String) :
    place address value (segment :: rest) (.sequence items) =
      Edit.onPart (items.get index) (fun changed => .sequence (items.set index changed))
        (place address value rest) := by
  cases rest with
  | nil =>
    simp only [place, h]
    rfl
  | cons next rest => simp only [place, h]

theorem place_sequence_of_error {segment : String} {items : List Node} {fault : AddressError}
    (h : Address.place address segment items.length = .error fault) (value : Node)
    (rest : List String) :
    place address value (segment :: rest) (.sequence items) = .error fault (.sequence items) := by
  cases rest <;> simp only [place, h]

theorem place_scalar (address : String) (value : Node) (segment : String) (rest : List String)
    (old : Scalar) : place address value (segment :: rest) (.scalar old) =
      .error (.notContainer address segment) (.scalar old) := by
  simp only [place]

/-- A node below mappings of one entry each. -/
def nest (value : Node) : List String → Node
  | [] => value
  | key :: rest => .mapping [(key, nest value rest)]

/-- Nothing can fail below a mapping that has no entries yet. -/
theorem place_empty (address : String) (value : Node) (segments : List String) :
    place address value segments (.mapping []) = .ok () (nest value segments) := by
  induction segments with
  | nil => rfl
  | cons segment rest ih => simp [place_mapping, Edit.onPart, ih, Entries.insert, nest]

theorem place_atomic (value : Node) (segments : List String) :
    (place address value segments).Atomic := by
  induction segments with
  | nil =>
    intro tree fault changed h
    simp [place] at h
  | cons segment rest ih =>
    intro tree fault changed h
    cases tree with
    | scalar old =>
      simp only [place] at h
      exact (EStateM.Result.error.inj h).2.symm
    | sequence items =>
      cases hp : Address.place address segment items.length with
      | error cause =>
        rw [place_sequence_of_error hp] at h
        exact (EStateM.Result.error.inj h).2.symm
      | ok index =>
        rw [place_sequence hp] at h
        have hstored := ih.onPart h
        simpa using hstored
    | mapping entries =>
      rw [place_mapping] at h
      cases hc : Entries.get? entries segment with
      | none =>
        obtain ⟨inner, hinner, -⟩ := Edit.onPart_eq_error h
        rw [hc, Option.getD_none, place_empty] at hinner
        simp at hinner
      | some child =>
        have hstored := ih.onPart h
        rwa [hc, Option.getD_some, Entries.insert_of_get? hc] at hstored

theorem set_atomic (address : String) (value : Node) : (set address value).Atomic :=
  place_atomic value _

theorem takeOut_atomic (last : String) : (takeOut address last).Atomic := by
  intro tree fault changed h
  cases tree with
  | scalar value => exact (EStateM.Result.error.inj h).2.symm
  | sequence items =>
    simp only [takeOut] at h
    split at h
    next => exact (EStateM.Result.error.inj h).2.symm
    next => simp at h
  | mapping entries =>
    simp only [takeOut] at h
    split at h
    next => simp at h
    next => exact (EStateM.Result.error.inj h).2.symm

theorem detach_atomic (address : String) : (detach address).Atomic := by
  unfold detach
  split
  next =>
    intro tree fault changed h
    exact (EStateM.Result.error.inj h).2.symm
  next parent last hsplit => exact (editAlong_atomic (takeOut_atomic last) _).mapError _

theorem delete_atomic (address : String) : (delete address).Atomic := by
  intro tree fault changed h
  unfold delete at h
  split at h
  next => simp at h
  next cause inner hd =>
    rw [← (EStateM.Result.error.inj h).2]
    exact detach_atomic address hd

/-- What `takeOut` took out of a container, `putBack` puts back. -/
theorem putBack_takeOut {last : String} {tree node without : Node} {index : Nat}
    (h : takeOut address last tree = .ok (node, index) without) :
    putBack last index node without = .ok () tree := by
  cases tree with
  | scalar value => simp [takeOut] at h
  | sequence items =>
    simp only [takeOut] at h
    split at h
    next => simp at h
    next place hp =>
      obtain ⟨hanswer, rfl⟩ := EStateM.Result.ok.inj h
      obtain ⟨rfl, rfl⟩ := Prod.mk.inj hanswer
      have hle : place.val ≤ (items.eraseIdx place.val).length := by
        rw [List.length_eraseIdx_of_lt place.isLt]
        have hlt := place.isLt
        omega
      simp [putBack, Nat.min_eq_left hle, List.insertIdx_eraseIdx_getElem place.isLt]
  | mapping entries =>
    simp only [takeOut] at h
    split at h
    next value place hv hp =>
      obtain ⟨hanswer, rfl⟩ := EStateM.Result.ok.inj h
      obtain ⟨rfl, rfl⟩ := Prod.mk.inj hanswer
      simp [putBack, Entries.insertAt_erase hv hp]
    next => simp at h

/-- The way to the container is the same after a node was taken out of it. -/
theorem editAlong_putBack {parent last : String} {segments : List String}
    {tree node without : Node} {index : Nat}
    (h : editAlong address (takeOut parent last) segments tree = .ok (node, index) without) :
    editAlong address (putBack last index node) segments without = .ok () tree := by
  induction segments generalizing tree without with
  | nil => exact putBack_takeOut h
  | cons segment rest ih =>
    cases tree with
    | scalar value => simp [editAlong] at h
    | sequence items =>
      unfold editAlong at h
      split at h
      next => simp at h
      next place hp =>
        obtain ⟨inner, hinner, rfl⟩ := Edit.onPart_eq_ok.1 h
        have hlt : place.val < (items.set place.val inner).length := by
          rw [List.length_set]
          exact place.isLt
        rw [editAlong_sequence (Address.index?_of_place hp) hlt, List.getElem_set_self]
        simp [Edit.onPart, ih hinner]
    | mapping entries =>
      unfold editAlong at h
      split at h
      next => simp at h
      next child hc =>
        obtain ⟨inner, hinner, rfl⟩ := Edit.onPart_eq_ok.1 h
        simp [editAlong, Edit.onPart, ih hinner, Entries.insert_insert,
          Entries.insert_of_get? hc]

theorem reattach_detach {tree node without : Node} {index : Nat}
    (h : detach address tree = .ok (node, index) without) :
    reattach address index node without = tree := by
  cases hs : (Address.parse address).splitLast? with
  | none =>
    simp only [detach, hs] at h
    exact absurd h Edit.throw_ne_ok
  | some parts =>
    obtain ⟨parent, last⟩ := parts
    simp only [detach, hs, Edit.mapError_eq_ok] at h
    simp [reattach, hs, editAlong_putBack h]

theorem move_atomic (source target : String) : (move source target).Atomic := by
  intro tree fault changed h
  unfold move at h
  split at h
  next cause inner hd =>
    rw [← (EStateM.Result.error.inj h).2]
    exact detach_atomic source hd
  next node index without hd =>
    split at h
    next => simp at h
    next cause inner hs =>
      have hinner := set_atomic target node hs
      rw [← (EStateM.Result.error.inj h).2, hinner, reattach_detach hd]

end Node
end ApiTidy
