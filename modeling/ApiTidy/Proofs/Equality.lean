import ApiTidy.Proofs.Address.Atomic
import ApiTidy.Proofs.Alike

/-!
Equality of trees is an equivalence wherever no key occurs twice, and equal trees answer alike: every
lookup finds equal nodes in both or fails in both for the same reason, and the references of the one
are those of the other in some order.
-/
namespace ApiTidy.Node
variable {first second : Node}

/-- Whether two lookups fail for the same reason or find related nodes. -/
def SameOutcome (R : Node → Node → Prop) (outcome other : Except AddressError Node) : Prop :=
  (∃ fault, outcome = .error fault ∧ other = .error fault) ∨
    ∃ x y, outcome = .ok x ∧ other = .ok y ∧ R x y

/-- Sequences of equal items are of one length, so an index is in the range of both or of neither. -/
theorem sameOutcome_step_sequence {xs ys : List Node} (h : List.Forall₂ Alike xs ys)
    (address segment : String) :
    SameOutcome Alike ((sequence xs).step address segment)
      ((sequence ys).step address segment) := by
  have hlength := h.length_eq
  cases hindex : Address.index? segment with
  | none =>
    have hfails (items : List Node) :
        (sequence items).step address segment = .error (.notNumeric address segment) := by
      simp only [step, Address.place, hindex]
    exact .inl ⟨_, hfails xs, hfails ys⟩
  | some index =>
    by_cases hlt : index < xs.length
    · have hother : index < ys.length := hlength ▸ hlt
      have hfinds (items : List Node) (hlt : index < items.length) :
          (sequence items).step address segment = .ok items[index] := by
        simp only [step, Address.place_of_index? hindex hlt, List.get_eq_getElem]
      have hrelated := rel_getElem? h index
      rw [List.getElem?_eq_getElem hlt, List.getElem?_eq_getElem hother] at hrelated
      cases hrelated with
      | some hitem => exact .inr ⟨_, _, hfinds xs hlt, hfinds ys hother, hitem⟩
    · have hother : ¬ index < ys.length := hlength ▸ hlt
      have hfails (items : List Node) (hlt : ¬ index < items.length) :
          (sequence items).step address segment =
            .error (.outOfRange address index items.length) := by
        simp only [step, Address.place, hindex, hlt, dite_false]
      exact .inl ⟨_, hfails xs hlt, hlength ▸ hfails ys hother⟩

theorem Alike.step (h : Alike first second) (address segment : String) :
    SameOutcome Alike (first.step address segment) (second.step address segment) := by
  obtain ⟨x, y, rfl, rfl, -⟩ | ⟨xs, ys, rfl, rfl, hitems⟩ | ⟨xs, ys, rfl, rfl, -, -, hagree⟩ :=
    h.cases
  · exact .inl ⟨.notContainer address segment, rfl, rfl⟩
  · exact sameOutcome_step_sequence hitems address segment
  · simp only [SameOutcome, Node.step]
    obtain ⟨x, y, hx, hy, hxy⟩ | ⟨hx, hy⟩ := Entries.rel_cases (hagree segment) <;> rw [hx, hy]
    · exact .inr ⟨x, y, rfl, rfl, hxy⟩
    · exact .inl ⟨.missing address, rfl, rfl⟩

theorem Alike.follow (h : Alike first second) (address : String) (segments : List String) :
    SameOutcome Alike (Node.follow address segments first)
      (Node.follow address segments second) := by
  induction segments generalizing first second with
  | nil => exact .inr ⟨first, second, rfl, rfl, h⟩
  | cons segment rest ih =>
    simp only [Node.follow]
    obtain ⟨fault, hx, hy⟩ | ⟨x, y, hx, hy, hchild⟩ := h.step address segment <;> rw [hx, hy]
    · exact .inl ⟨fault, rfl, rfl⟩
    · exact ih hchild

/-- Equality is an equivalence of the trees in which no key occurs twice. -/
theorem equivalence_same :
    Equivalence fun a b : {node : Node // node.WellFormed} => a.val.same b.val = true where
  refl a := (Alike.refl a.property).same
  symm {a b} h := (Alike.symm ⟨a.property, b.property, h⟩).same
  trans {a b c} h hnext :=
    (Alike.trans ⟨a.property, b.property, h⟩ ⟨b.property, c.property, hnext⟩).same

/-- Equality is reflexive, symmetric and transitive, and it is respected by whatever is asked of a
tree by an address and by the search for references. -/
theorem same_is_congruence :
    Equivalence (fun a b : {node : Node // node.WellFormed} => a.val.same b.val = true) ∧
    ∀ a b : Node, a.WellFormed → b.WellFormed → a.same b = true →
      (∀ address : String,
        SameOutcome (fun x y => x.same y = true) (a.lookup address) (b.lookup address)) ∧
      a.references.Perm b.references := by
  refine ⟨equivalence_same, fun a b ha hb hsame => ?_⟩
  have h : Alike a b := ⟨ha, hb, hsame⟩
  refine ⟨fun address => ?_, h.references_perm⟩
  obtain hfails | ⟨x, y, hx, hy, hxy⟩ := h.follow address (Address.parse address).segments
  · exact .inl hfails
  · exact .inr ⟨x, y, hx, hy, hxy.same⟩

/-- A tree with a zero in it, and the same with other keys first and the other zero. -/
def zeroed (negative : Bool) : Node :=
  let zero : Node := .scalar (.number (.float (.zero negative)))
  let pointing : Node := (Reference.mk .schemas "P").toNode
  if negative then .mapping [("p", pointing), ("list", .sequence [zero, pointing])]
  else .mapping [("list", .sequence [zero, pointing]), ("p", pointing)]

theorem same_is_congruence_zeroed :
    (zeroed false).WellFormed ∧ (zeroed true).WellFormed ∧
      (zeroed false).same (zeroed true) = true ∧ (zeroed true).same (zeroed false) = true ∧
      SameOutcome (fun x y => x.same y = true) ((zeroed false).lookup "list.0")
        ((zeroed true).lookup "list.0") ∧
      (zeroed false).references.Perm (zeroed true).references := by
  have hfirst : (zeroed false).WellFormed := by decide
  have hsecond : (zeroed true).WellFormed := by decide
  have hsame : (zeroed false).same (zeroed true) = true := by decide
  obtain ⟨hequivalence, hrespected⟩ := same_is_congruence
  obtain ⟨hlookups, hreferences⟩ := hrespected _ _ hfirst hsecond hsame
  have hback := hequivalence.symm (x := ⟨_, hfirst⟩) (y := ⟨_, hsecond⟩) hsame
  exact ⟨hfirst, hsecond, hsame, hback, hlookups "list.0", hreferences⟩

end ApiTidy.Node
