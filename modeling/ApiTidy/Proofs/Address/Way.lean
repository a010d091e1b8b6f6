import Mathlib.Data.List.Forall2
import ApiTidy.Proofs.Address.Place
import ApiTidy.Proofs.Alike

/-!
Ways through a tree. A way is a list of steps from the root down, each to the value under a key or
to an item. Segments spell a way, and an index has more than one spelling. Replacing the node at the
end of a way changes nothing at the end of ways beside it, and the containers passed on the way keep
their keys and their lengths.
-/
namespace ApiTidy

/-- One step down a tree. -/
inductive Step where
  | key (name : String)
  | item (index : Nat)
  deriving DecidableEq, Repr

/-- Whether a segment denotes a step: a key by its name, an item by its index. -/
def Step.Spelled : Step → String → Prop
  | .key name, segment => segment = name
  | .item index, segment => Address.index? segment = some index

instance (step : Step) (segment : String) : Decidable (step.Spelled segment) := by
  cases step <;> exact inferInstanceAs (Decidable (_ = _))

namespace Node
variable {α : Type} {address : String} {way front spot : List Step} {segments : List String}

/-- The node at the end of a way. -/
def reach? : List Step → Node → Option Node
  | [], node => some node
  | .key name :: rest, .mapping entries => (Entries.get? entries name).bind (reach? rest)
  | .item index :: rest, .sequence items => items[index]?.bind (reach? rest)
  | _ :: _, _ => none

@[simp] theorem reach?_nil (tree : Node) : tree.reach? [] = some tree := by
  cases tree <;> rfl

@[simp] theorem bind_reach?_nil (tree : Option Node) : tree.bind (reach? []) = tree := by
  cases tree <;> simp

@[simp] theorem reach?_key_mapping (name : String) (rest : List Step) (entries : Entries Node) :
    (mapping entries).reach? (.key name :: rest) =
      (Entries.get? entries name).bind (reach? rest) := rfl

@[simp] theorem reach?_item_sequence (index : Nat) (rest : List Step) (items : List Node) :
    (sequence items).reach? (.item index :: rest) = items[index]?.bind (reach? rest) := rfl

@[simp] theorem reach?_item_mapping (index : Nat) (rest : List Step) (entries : Entries Node) :
    (mapping entries).reach? (.item index :: rest) = none := rfl

@[simp] theorem reach?_key_sequence (name : String) (rest : List Step) (items : List Node) :
    (sequence items).reach? (.key name :: rest) = none := rfl

@[simp] theorem reach?_scalar (step : Step) (rest : List Step) (value : Scalar) :
    (scalar value).reach? (step :: rest) = none := by
  cases step <;> rfl

/-- The end of a way of two parts is the end of the second, from the end of the first on. -/
theorem reach?_append (front rest : List Step) (tree : Node) :
    tree.reach? (front ++ rest) = (tree.reach? front).bind (reach? rest) := by
  induction front generalizing tree with
  | nil => simp
  | cons step front ih =>
    cases tree with
    | scalar value => simp
    | sequence items =>
      cases step with
      | key name => simp
      | item index => cases h : items[index]? <;> simp [h, ih]
    | mapping entries =>
      cases step with
      | item index => simp
      | key name => cases h : Entries.get? entries name <;> simp [h, ih]

theorem reach?_cons (step : Step) (rest : List Step) (tree : Node) :
    tree.reach? (step :: rest) = (tree.reach? [step]).bind (reach? rest) :=
  reach?_append [step] rest tree

theorem reach?_key (name : String) (rest : List Step) (node : Node) :
    node.reach? (.key name :: rest) = (node.field? name).bind (reach? rest) := by
  cases node <;> rfl

theorem reach?_modifyField_of_ne {step : Step} {key : String} (h : step ≠ .key key)
    (f : Node → Node) (rest : List Step) (node : Node) :
    (node.modifyField f key).reach? (step :: rest) = node.reach? (step :: rest) := by
  cases node with
  | scalar value => rfl
  | sequence items => rfl
  | mapping entries =>
    cases step with
    | item index => rfl
    | key other =>
      have hother : other ≠ key := fun heq => h (heq ▸ rfl)
      simp [Entries.get?_modify_of_ne hother]

/-- In a tree without repeated keys there are none below any point. -/
theorem WellFormed.reach? {tree found : Node} (htree : tree.WellFormed)
    (h : tree.reach? way = some found) : found.WellFormed := by
  induction way generalizing tree with
  | nil =>
    rw [reach?_nil] at h
    exact Option.some.inj h ▸ htree
  | cons step rest ih =>
    cases tree with
    | scalar value => simp at h
    | mapping entries =>
      cases step with
      | item index => simp at h
      | key name =>
        obtain ⟨child, hchild, hrest⟩ := Option.bind_eq_some_iff.1 h
        exact ih ((wellFormed_mapping.1 htree).2 _ (Entries.mem_of_get? hchild)) hrest
    | sequence items =>
      cases step with
      | key name => simp at h
      | item index =>
        obtain ⟨child, hchild, hrest⟩ := Option.bind_eq_some_iff.1 h
        exact ih (wellFormed_sequence.1 htree _ (List.mem_of_getElem? hchild)) hrest

/-- Equal trees have equal nodes at the end of each way, or none. -/
theorem Alike.reach? {first second : Node} (h : Alike first second) (way : List Step) :
    Option.Rel Alike (first.reach? way) (second.reach? way) := by
  induction way generalizing first second with
  | nil =>
    rw [reach?_nil, reach?_nil]
    exact .some h
  | cons step rest ih =>
    have hbelow {x y : Option Node} (hxy : Option.Rel Alike x y) :
        Option.Rel Alike (x.bind (Node.reach? rest)) (y.bind (Node.reach? rest)) := by
      cases hxy with
      | none => exact .none
      | some hchild => exact ih hchild
    obtain ⟨x, y, rfl, rfl, -⟩ | ⟨xs, ys, rfl, rfl, hitems⟩ | ⟨xs, ys, rfl, rfl, -, -, hagree⟩ :=
      h.cases
    · rw [reach?_scalar, reach?_scalar]
      exact .none
    · cases step with
      | key name => exact .none
      | item index => exact hbelow (rel_getElem? hitems index)
    · cases step with
      | key name => exact hbelow (hagree name)
      | item index => exact .none

/-- Whether segments lead from a tree to a node, and the way that they take. -/
structure Leads (segments : List String) (way : List Step) (tree found : Node) : Prop where
  spelled : List.Forall₂ Step.Spelled way segments
  reached : tree.reach? way = some found

theorem leads_nil {tree found : Node} : Leads [] way tree found ↔ way = [] ∧ tree = found := by
  constructor
  · rintro ⟨hspelled, hreached⟩
    obtain rfl := List.forall₂_nil_right_iff.1 hspelled
    rw [reach?_nil] at hreached
    exact ⟨rfl, Option.some.inj hreached⟩
  · rintro ⟨rfl, rfl⟩
    exact ⟨.nil, reach?_nil tree⟩

theorem Leads.key {name : String} {entries : Entries Node} {child found : Node}
    (hchild : Entries.get? entries name = some child) (h : Leads segments way child found) :
    Leads (name :: segments) (.key name :: way) (.mapping entries) found := by
  constructor
  · exact .cons rfl h.spelled
  · simp [hchild, h.reached]

theorem Leads.item {segment : String} {index : Nat} {items : List Node} {child found : Node}
    (hindex : Address.index? segment = some index) (hchild : items[index]? = some child)
    (h : Leads segments way child found) :
    Leads (segment :: segments) (.item index :: way) (.sequence items) found := by
  constructor
  · exact .cons hindex h.spelled
  · simp [hchild, h.reached]

theorem Leads.append {later : List String} {rest : List Step} {tree between found : Node}
    (hfront : Leads segments front tree between) (hrest : Leads later rest between found) :
    Leads (segments ++ later) (front ++ rest) tree found := by
  constructor
  · exact List.rel_append hfront.spelled hrest.spelled
  · rw [reach?_append, hfront.reached]
    exact hrest.reached

theorem Leads.split {later : List String} {tree found : Node}
    (h : Leads (segments ++ later) way tree found) :
    ∃ front rest between, way = front ++ rest ∧ Leads segments front tree between ∧
      Leads later rest between found := by
  have hfront := List.forall₂_take_append way segments later h.spelled
  have hrest := List.forall₂_drop_append way segments later h.spelled
  have hreached := h.reached
  rw [← List.take_append_drop segments.length way, reach?_append] at hreached
  obtain ⟨between, hbetween, hfound⟩ := Option.bind_eq_some_iff.1 hreached
  exact ⟨_, _, between, (List.take_append_drop segments.length way).symm, ⟨hfront, hbetween⟩,
    ⟨hrest, hfound⟩⟩

theorem Leads.cons_split {segment : String} {tree found : Node}
    (h : Leads (segment :: segments) way tree found) :
    ∃ first rest child, way = first ++ rest ∧ Leads [segment] first tree child ∧
      Leads segments rest child found :=
  Leads.split (show Leads ([segment] ++ segments) way tree found from h)

/-- One segment leads to the value under a key or to an item. -/
theorem Leads.step_cases {segment : String} {tree found : Node}
    (h : Leads [segment] way tree found) :
    (∃ entries, tree = .mapping entries ∧ way = [.key segment] ∧
        Entries.get? entries segment = some found) ∨
      ∃ items index, tree = .sequence items ∧ way = [.item index] ∧
        Address.index? segment = some index ∧ items[index]? = some found := by
  obtain ⟨step, rest, hspelled, hrest, rfl⟩ := List.forall₂_cons_right_iff.1 h.spelled
  obtain rfl := List.forall₂_nil_right_iff.1 hrest
  have hreached := h.reached
  cases tree with
  | scalar value => simp at hreached
  | mapping entries =>
    cases step with
    | item index => simp at hreached
    | key name =>
      obtain rfl : segment = name := hspelled
      exact .inl ⟨entries, rfl, rfl, by simpa using hreached⟩
  | sequence items =>
    cases step with
    | key name => simp at hreached
    | item index => exact .inr ⟨items, index, rfl, rfl, hspelled, by simpa using hreached⟩

/-- There is only one way that segments can take. -/
theorem Leads.unique {other : List Step} {tree found node : Node}
    (h : Leads segments way tree found) (hother : Leads segments other tree node) :
    way = other ∧ found = node := by
  suffices hway : way = other by
    have hreached := h.reached
    rw [hway, hother.reached] at hreached
    exact ⟨hway, (Option.some.inj hreached).symm⟩
  induction segments generalizing way other tree with
  | nil => rw [(leads_nil.1 h).1, (leads_nil.1 hother).1]
  | cons segment rest ih =>
    obtain ⟨first, later, child, rfl, hfirst, hlater⟩ := h.cons_split
    obtain ⟨second, others, between, rfl, hsecond, hothers⟩ := hother.cons_split
    have hstep : first = second := by
      obtain ⟨_, rfl, rfl, -⟩ | ⟨_, _, rfl, rfl, hindex, -⟩ := hfirst.step_cases
      · obtain ⟨_, -, rfl, -⟩ | ⟨_, _, htree, -⟩ := hsecond.step_cases
        · rfl
        · simp at htree
      · obtain ⟨_, htree, -⟩ | ⟨_, _, -, rfl, hsame, -⟩ := hsecond.step_cases
        · simp at htree
        · rw [Option.some.inj (hindex.symm.trans hsame)]
    subst hstep
    obtain rfl := Option.some.inj (hfirst.reached.symm.trans hsecond.reached)
    rw [ih hlater hothers]

/-- A lookup steps where a segment leads. -/
theorem step_eq_ok {segment : String} {node child : Node} :
    node.step address segment = .ok child ↔ ∃ way, Leads [segment] way node child := by
  constructor
  · intro h
    cases node with
    | scalar value => simp [step] at h
    | mapping entries =>
      exact ⟨[.key segment], .key (step_mapping_eq_ok.1 h) (leads_nil.2 ⟨rfl, rfl⟩)⟩
    | sequence items =>
      simp only [step] at h
      split at h
      next index hindex =>
        obtain rfl := Except.ok.inj h
        have hitem : items[index.val]? = some (items.get index) := by simp
        exact ⟨[.item index.val],
          .item (Address.index?_of_place hindex) hitem (leads_nil.2 ⟨rfl, rfl⟩)⟩
      next => simp at h
  · rintro ⟨way, h⟩
    obtain ⟨entries, rfl, -, hchild⟩ | ⟨items, index, rfl, -, hindex, hchild⟩ := h.step_cases
    · exact step_mapping_eq_ok.2 hchild
    · obtain ⟨hlt, rfl⟩ := List.getElem?_eq_some_iff.1 hchild
      simp [step, Address.place_of_index? hindex hlt]

/-- A lookup finds a node exactly if the segments lead there. -/
theorem follow_eq_ok {tree found : Node} :
    follow address segments tree = .ok found ↔ ∃ way, Leads segments way tree found := by
  induction segments generalizing tree with
  | nil => simp [follow, leads_nil]
  | cons segment rest ih =>
    rw [follow_cons_eq_ok]
    constructor
    · rintro ⟨child, hchild, hrest⟩
      obtain ⟨first, hfirst⟩ := step_eq_ok.1 hchild
      obtain ⟨later, hlater⟩ := ih.1 hrest
      exact ⟨first ++ later, hfirst.append hlater⟩
    · rintro ⟨way, h⟩
      obtain ⟨first, later, child, -, hfirst, hlater⟩ := h.cons_split
      exact ⟨child, step_eq_ok.2 ⟨first, hfirst⟩, ih.2 ⟨later, hlater⟩⟩

/-- One tree is the other with another node at the end of a way. -/
inductive Replaced (old new : Node) : List Step → Node → Node → Prop
  | here : Replaced old new [] old new
  | key {name : String} {rest : List Step} {entries : Entries Node} {child changed : Node} :
      Entries.get? entries name = some child → Replaced old new rest child changed →
      Replaced old new (.key name :: rest) (.mapping entries)
        (.mapping (Entries.insert entries name changed))
  | item {index : Nat} {rest : List Step} {items : List Node} {child changed : Node} :
      items[index]? = some child → Replaced old new rest child changed →
      Replaced old new (.item index :: rest) (.sequence items) (.sequence (items.set index changed))

/-- Any node on the way can be replaced. -/
theorem exists_replaced {old tree : Node} (h : tree.reach? way = some old) (new : Node) :
    ∃ changed, Replaced old new way tree changed := by
  induction way generalizing tree with
  | nil =>
    rw [reach?_nil] at h
    obtain rfl := Option.some.inj h
    exact ⟨new, .here⟩
  | cons step rest ih =>
    cases tree with
    | scalar value => simp at h
    | mapping entries =>
      cases step with
      | item index => simp at h
      | key name =>
        obtain ⟨child, hchild, hrest⟩ := Option.bind_eq_some_iff.1 h
        obtain ⟨changed, hchanged⟩ := ih hrest
        exact ⟨_, .key hchild hchanged⟩
    | sequence items =>
      cases step with
      | key name => simp at h
      | item index =>
        obtain ⟨child, hchild, hrest⟩ := Option.bind_eq_some_iff.1 h
        obtain ⟨changed, hchanged⟩ := ih hrest
        exact ⟨_, .item hchild hchanged⟩

/-- An edit along segments edits the node that they lead to. -/
theorem editAlong_eq_ok {edit : Edit AddressError Node α} {answer : α} {tree changed : Node} :
    editAlong address edit segments tree = .ok answer changed ↔
      ∃ way old new, Leads segments way tree old ∧ edit old = .ok answer new ∧
        Replaced old new way tree changed := by
  induction segments generalizing tree changed with
  | nil =>
    constructor
    · exact fun h => ⟨[], tree, changed, leads_nil.2 ⟨rfl, rfl⟩, h, .here⟩
    · rintro ⟨way, old, new, hleads, hedit, hreplaced⟩
      obtain ⟨rfl, rfl⟩ := leads_nil.1 hleads
      cases hreplaced
      exact hedit
  | cons segment rest ih =>
    constructor
    · intro h
      cases tree with
      | scalar value => simp [editAlong] at h
      | mapping entries =>
        simp only [editAlong] at h
        split at h
        next => simp at h
        next child hchild =>
          obtain ⟨inner, hinner, rfl⟩ := Edit.onPart_eq_ok.1 h
          obtain ⟨way, old, new, hleads, hedit, hreplaced⟩ := ih.1 hinner
          exact ⟨.key segment :: way, old, new, .key hchild hleads, hedit, .key hchild hreplaced⟩
      | sequence items =>
        simp only [editAlong] at h
        split at h
        next => simp at h
        next index hplace =>
          obtain ⟨inner, hinner, rfl⟩ := Edit.onPart_eq_ok.1 h
          obtain ⟨way, old, new, hleads, hedit, hreplaced⟩ := ih.1 hinner
          have hindex := Address.index?_of_place hplace
          have hitem : items[index.val]? = some (items.get index) := by simp
          exact ⟨.item index.val :: way, old, new, .item hindex hitem hleads, hedit,
            .item hitem hreplaced⟩
    · rintro ⟨way, old, new, hleads, hedit, hreplaced⟩
      obtain ⟨first, later, child, rfl, hfirst, hlater⟩ := hleads.cons_split
      obtain ⟨entries, rfl, rfl, hchild⟩ | ⟨items, index, rfl, rfl, hindex, hchild⟩ :=
        hfirst.step_cases
      · cases hreplaced with
        | key hfound hinner =>
          obtain rfl := Option.some.inj (hchild.symm.trans hfound)
          have hbelow := ih.2 ⟨later, old, new, hlater, hedit, hinner⟩
          simp [editAlong, hchild, Edit.onPart, hbelow]
      · cases hreplaced with
        | item hfound hinner =>
          obtain rfl := Option.some.inj (hchild.symm.trans hfound)
          obtain ⟨hlt, rfl⟩ := List.getElem?_eq_some_iff.1 hchild
          have hbelow := ih.2 ⟨later, old, new, hlater, hedit, hinner⟩
          simp [editAlong_sequence hindex hlt, Edit.onPart, hbelow]

/-- An edit along segments goes on below the next of them, or fails there as a lookup does. -/
theorem editAlong_cons (address : String) (edit : Edit AddressError Node α) (segment : String)
    (rest : List String) (tree : Node) :
    (∃ fault, tree.step address segment = .error fault ∧
        editAlong address edit (segment :: rest) tree = .error fault tree) ∨
      ∃ child store, tree.step address segment = .ok child ∧
        editAlong address edit (segment :: rest) tree =
          Edit.onPart child store (editAlong address edit rest) := by
  cases tree with
  | scalar value => exact .inl ⟨_, rfl, rfl⟩
  | mapping entries =>
    cases h : Entries.get? entries segment with
    | none => exact .inl ⟨.missing address, by simp [step, h], by simp [editAlong, h]⟩
    | some child => exact .inr ⟨child, _, by simp [step, h], by simp only [editAlong, h]; rfl⟩
  | sequence items =>
    cases h : Address.place address segment items.length with
    | error fault => exact .inl ⟨fault, by simp [step, h], by simp [editAlong, h]⟩
    | ok index =>
      exact .inr ⟨items.get index, _, by simp [step, h], by simp only [editAlong, h]; rfl⟩

/-- An edit along segments fails where a lookup does, or at the node that they lead to. -/
theorem exists_editAlong_eq_error {edit : Edit AddressError Node α} {tree : Node}
    {fault : AddressError} :
    (∃ changed, editAlong address edit segments tree = .error fault changed) ↔
      follow address segments tree = .error fault ∨
        ∃ node, follow address segments tree = .ok node ∧ ∃ after, edit node = .error fault after := by
  induction segments generalizing tree with
  | nil => simp [editAlong, follow]
  | cons segment rest ih =>
    obtain ⟨cause, hstep, hedit⟩ | ⟨child, store, hstep, hedit⟩ :=
      editAlong_cons address edit segment rest tree
    · simp [follow, hstep, hedit]
    · rw [hedit, Edit.exists_onPart_eq_error_with, ih, follow, hstep]

/-- Two nodes of one kind, where the second has further keys after those of the first. -/
inductive Grown : List String → Node → Node → Prop
  | scalar (value : Scalar) : Grown [] (.scalar value) (.scalar value)
  | sequence {items others : List Node} :
      others.length = items.length → Grown [] (.sequence items) (.sequence others)
  | mapping {added : List String} {entries others : Entries Node} :
      Entries.keys others = Entries.keys entries ++ added →
      Grown added (.mapping entries) (.mapping others)

theorem Grown.refl (node : Node) : Grown [] node node := by
  cases node with
  | scalar value => exact .scalar value
  | sequence items => exact .sequence rfl
  | mapping entries => exact .mapping (List.append_nil _).symm

/-- Whether neither of two ways leads on from the other. -/
def Apart (spot way : List Step) : Prop := ¬ spot <+: way ∧ ¬ way <+: spot

theorem Apart.ne_nil_left (h : Apart spot way) : spot ≠ [] := by
  rintro rfl
  exact h.1 List.nil_prefix

theorem Apart.ne_nil_right (h : Apart spot way) : way ≠ [] := by
  rintro rfl
  exact h.2 List.nil_prefix

theorem apart_append (front : List Step) :
    Apart (front ++ spot) (front ++ way) ↔ Apart spot way := by
  simp [Apart]

theorem Apart.tail {step : Step} (h : Apart (step :: spot) (step :: way)) : Apart spot way :=
  (apart_append [step]).1 h

/-- A way apart from another, one above it, or one on from its end. -/
theorem way_cases (spot way : List Step) :
    Apart spot way ∨ (spot <+: way ∧ spot ≠ way) ∨ ∃ rest, spot = way ++ rest := by
  by_cases hbelow : way <+: spot
  · obtain ⟨rest, rfl⟩ := hbelow
    exact .inr (.inr ⟨rest, rfl⟩)
  · by_cases habove : spot <+: way
    · exact .inr (.inl ⟨habove, fun heq => hbelow (heq ▸ List.prefix_rfl)⟩)
    · exact .inl ⟨habove, hbelow⟩

namespace Replaced
variable {old new tree changed : Node}

theorem reach?_old (h : Replaced old new way tree changed) : tree.reach? way = some old := by
  induction h with
  | here => exact reach?_nil old
  | key hchild _ ih => simp [hchild, ih]
  | item hchild _ ih => simp [hchild, ih]

theorem reach?_new (h : Replaced old new way tree changed) : changed.reach? way = some new := by
  induction h with
  | here => exact reach?_nil new
  | key _ _ ih => simp [ih]
  | item hchild _ ih =>
    obtain ⟨hlt, -⟩ := List.getElem?_eq_some_iff.1 hchild
    simp [hlt, ih]

theorem reach?_append_old (h : Replaced old new way tree changed) (rest : List Step) :
    tree.reach? (way ++ rest) = old.reach? rest := by
  rw [reach?_append, h.reach?_old]
  rfl

theorem reach?_append_new (h : Replaced old new way tree changed) (rest : List Step) :
    changed.reach? (way ++ rest) = new.reach? rest := by
  rw [reach?_append, h.reach?_new]
  rfl

theorem trans {between newest : Node} (h : Replaced old new way tree between)
    (hnext : Replaced new newest way between changed) : Replaced old newest way tree changed := by
  induction h generalizing changed with
  | here =>
    cases hnext
    exact .here
  | key hchild _ ih =>
    cases hnext with
    | key hfound hinner =>
      rw [Entries.get?_insert_self] at hfound
      obtain rfl := Option.some.inj hfound
      rw [Entries.insert_insert]
      exact .key hchild (ih hinner)
  | item hchild _ ih =>
    cases hnext with
    | item hfound hinner =>
      obtain ⟨hlt, -⟩ := List.getElem?_eq_some_iff.1 hchild
      rw [List.getElem?_set_self hlt] at hfound
      obtain rfl := Option.some.inj hfound
      rw [List.set_set]
      exact .item hchild (ih hinner)

/-- A tree stays equal if a node in it is replaced by an equal one. -/
theorem alike (h : Replaced old new way tree changed) (hsame : Alike old new)
    (htree : tree.WellFormed) : Alike tree changed := by
  induction h with
  | here => exact hsame
  | @key name rest entries child changed hchild _ ih =>
    obtain ⟨hkeys, hvalues⟩ := wellFormed_mapping.1 htree
    have hmem := Entries.mem_of_get? hchild
    have hsome : name ∈ Entries.keys entries := Entries.get?_isSome_iff.1 (by rw [hchild]; rfl)
    refine alike_mapping.2 ⟨hkeys, ?_, fun other => ?_⟩
    · rwa [Entries.Distinct, Entries.keys_insert_of_mem hsome]
    · by_cases hname : other = name
      · subst hname
        rw [hchild, Entries.get?_insert_self]
        exact .some (ih (hvalues _ hmem))
      · rw [Entries.get?_insert_of_ne hname]
        cases hother : Entries.get? entries other with
        | none => exact .none
        | some value => exact .some (.refl (hvalues _ (Entries.mem_of_get? hother)))
  | @item index rest items child changed hchild _ ih =>
    have hitems := wellFormed_sequence.1 htree
    refine alike_sequence.2 (List.forall₂_iff_get.2 ⟨(List.length_set ..).symm, ?_⟩)
    intro place hlt _
    rw [List.get_eq_getElem, List.get_eq_getElem, List.getElem_set]
    split
    next heq =>
      subst heq
      obtain ⟨_, rfl⟩ := List.getElem?_eq_some_iff.1 hchild
      exact ih (hitems _ (List.getElem_mem _))
    next => exact .refl (hitems _ (List.getElem_mem _))

/-- What stands beside the way stays. -/
theorem reach?_beside (h : Replaced old new way tree changed) (hspot : Apart spot way) :
    changed.reach? spot = tree.reach? spot := by
  induction h generalizing spot with
  | here => exact absurd rfl hspot.ne_nil_right
  | @key name rest entries child changed hchild _ ih =>
    cases spot with
    | nil => exact absurd rfl hspot.ne_nil_left
    | cons step spot =>
      cases step with
      | item index => rfl
      | key other =>
        by_cases hname : other = name
        · subst hname
          simp [hchild, ih hspot.tail]
        · simp [Entries.get?_insert_of_ne hname]
  | @item index rest items child changed hchild _ ih =>
    cases spot with
    | nil => exact absurd rfl hspot.ne_nil_left
    | cons step spot =>
      cases step with
      | key name => rfl
      | item other =>
        by_cases hindex : other = index
        · subst hindex
          obtain ⟨hlt, rfl⟩ := List.getElem?_eq_some_iff.1 hchild
          simp [hlt, ih hspot.tail]
        · simp [List.getElem?_set_ne (Ne.symm hindex)]

/-- The containers that the way passes keep their keys and their lengths. -/
theorem grown_above (h : Replaced old new way tree changed) (habove : spot <+: way)
    (hne : spot ≠ way) :
    ∃ before after, tree.reach? spot = some before ∧ changed.reach? spot = some after ∧
      Grown [] before after := by
  induction h generalizing spot with
  | here => exact absurd (List.prefix_nil.1 habove) hne
  | @key name rest entries child changed hchild _ ih =>
    cases spot with
    | nil =>
      have hkeys := Entries.keys_insert_of_mem
        (Entries.get?_isSome_iff.1 (by rw [hchild]; rfl)) changed
      exact ⟨_, _, reach?_nil _, reach?_nil _, .mapping (by rw [hkeys, List.append_nil])⟩
    | cons step spot =>
      obtain ⟨rfl, hspot⟩ := List.cons_prefix_cons.1 habove
      obtain ⟨before, after, hbefore, hafter, hgrown⟩ := ih hspot fun heq => hne (by rw [heq])
      exact ⟨before, after, by simp [hchild, hbefore], by simp [hafter], hgrown⟩
  | @item index rest items child changed hchild _ ih =>
    cases spot with
    | nil => exact ⟨_, _, reach?_nil _, reach?_nil _, .sequence (List.length_set ..)⟩
    | cons step spot =>
      obtain ⟨rfl, hspot⟩ := List.cons_prefix_cons.1 habove
      obtain ⟨before, after, hbefore, hafter, hgrown⟩ := ih hspot fun heq => hne (by rw [heq])
      obtain ⟨hlt, -⟩ := List.getElem?_eq_some_iff.1 hchild
      exact ⟨before, after, by simp [hchild, hbefore], by simp [hlt, hafter], hgrown⟩

end Replaced
end Node
end ApiTidy
