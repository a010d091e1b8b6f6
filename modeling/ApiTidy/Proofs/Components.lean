import ApiTidy.Document.Prune
import ApiTidy.Proofs.Edit
import ApiTidy.Proofs.Node

/-!
Changing the components of one category, or of several, and nothing else of a document.
-/
namespace ApiTidy

theorem ComponentKind.ofKey?_key (kind : ComponentKind) : ofKey? kind.key = some kind := by
  cases kind <;> decide

theorem ComponentKind.key_of_ofKey? {category : String} {kind : ComponentKind}
    (h : ofKey? category = some kind) : kind.key = category := by
  have hkey := List.find?_some h
  simpa using hkey

theorem ComponentKind.key_inj {a b : ComponentKind} (h : a.key = b.key) : a = b := by
  have hsome : some a = some b := by rw [← ofKey?_key a, ← ofKey?_key b, h]
  exact Option.some.inj hsome

@[simp] theorem ComponentKind.mem_normalize {kinds : List ComponentKind} {kind : ComponentKind} :
    kind ∈ normalize kinds ↔ kind ∈ kinds := by
  have hall : kind ∈ all := by cases kind <;> decide
  simp [normalize, hall]

theorem HttpMethod.ofKey?_key (method : HttpMethod) : ofKey? method.key = some method := by
  cases method <;> decide

theorem HttpMethod.key_of_ofKey? {key : String} {method : HttpMethod}
    (h : ofKey? key = some method) : method.key = key := by
  have hkey := List.find?_some h
  simpa using hkey

theorem ComponentKind.nodup_normalize (kinds : List ComponentKind) : (normalize kinds).Nodup :=
  List.filter_sublist.nodup (by decide)

namespace Document

/-- Change the components of a category, if it is a mapping. -/
def onCategory (kind : ComponentKind) (f : Entries Node → Entries Node) (doc : Document) :
    Document :=
  ⟨doc.root.modifyField (Node.modifyField (Node.onEntries f) kind.key) componentsKey⟩

theorem components?_eq (doc : Document) (kind : ComponentKind) :
    doc.components? kind =
      ((doc.root.field? componentsKey).bind (·.field? kind.key)).bind Node.entries? := by
  unfold components? region?
  cases doc.root.field? componentsKey with
  | none => rfl
  | some categories => cases categories <;> rfl

theorem components?_eq_some {doc : Document} {kind : ComponentKind} {entries : Entries Node} :
    doc.components? kind = some entries ↔ ∃ categories,
      doc.root.field? componentsKey = some (.mapping categories) ∧
        Node.field? (.mapping categories) kind.key = some (.mapping entries) := by
  rw [components?_eq, Node.bind_entries?_eq_some]
  constructor
  · intro h
    obtain ⟨region, hregion, hcategory⟩ := Option.bind_eq_some_iff.1 h
    cases region with
    | scalar value => simp [Node.field?] at hcategory
    | sequence items => simp [Node.field?] at hcategory
    | mapping categories => exact ⟨categories, hregion, hcategory⟩
  · rintro ⟨categories, hregion, hcategory⟩
    exact Option.bind_eq_some_iff.2 ⟨.mapping categories, hregion, hcategory⟩

theorem components?_onCategory_self (kind : ComponentKind) (f : Entries Node → Entries Node)
    (doc : Document) :
    (doc.onCategory kind f).components? kind = (doc.components? kind).map f := by
  simp only [components?_eq, onCategory, Node.field?_modifyField_self]
  cases doc.root.field? componentsKey with
  | none => rfl
  | some categories =>
    simp only [Option.map_some, Option.bind_some, Node.field?_modifyField_self]
    cases categories.field? kind.key with
    | none => rfl
    | some category => cases category <;> rfl

theorem components?_onCategory_of_ne {kind other : ComponentKind} (h : other ≠ kind)
    (f : Entries Node → Entries Node) (doc : Document) :
    (doc.onCategory kind f).components? other = doc.components? other := by
  have hkey : other.key ≠ kind.key := fun e => h (ComponentKind.key_inj e)
  simp only [components?_eq, onCategory, Node.field?_modifyField_self]
  cases doc.root.field? componentsKey with
  | none => rfl
  | some categories =>
    simp only [Option.map_some, Option.bind_some, Node.field?_modifyField_of_ne hkey]

theorem onCategory_congr {doc : Document} {kind : ComponentKind}
    {f g : Entries Node → Entries Node}
    (h : ∀ entries, doc.components? kind = some entries → f entries = g entries) :
    doc.onCategory kind f = doc.onCategory kind g := by
  refine congrArg Document.mk (Node.modifyField_congr fun categories hcategories => ?_)
  refine Node.modifyField_congr fun category hcategory => ?_
  cases category with
  | mapping entries =>
    have hentries : doc.components? kind = some entries := by
      simp [components?_eq, hcategories, hcategory, Node.entries?]
    exact congrArg _ (h entries hentries)
  | sequence items => rfl
  | scalar value => rfl

theorem onCategory_onCategory (kind : ComponentKind) (f g : Entries Node → Entries Node)
    (doc : Document) :
    (doc.onCategory kind f).onCategory kind g = doc.onCategory kind (g ∘ f) := by
  have hentries : Node.onEntries g ∘ Node.onEntries f = Node.onEntries (g ∘ f) := by
    funext node
    cases node <;> rfl
  have hcategories : Node.modifyField (Node.onEntries g) kind.key ∘
      Node.modifyField (Node.onEntries f) kind.key =
        Node.modifyField (Node.onEntries (g ∘ f)) kind.key := by
    funext node
    rw [Function.comp_apply, Node.modifyField_modifyField, hentries]
  unfold onCategory
  rw [Node.modifyField_modifyField, hcategories]

theorem onCategory_comm {kind other : ComponentKind} (h : kind ≠ other)
    (f g : Entries Node → Entries Node) (doc : Document) :
    (doc.onCategory kind f).onCategory other g = (doc.onCategory other g).onCategory kind f := by
  have hkey : kind.key ≠ other.key := fun e => h (ComponentKind.key_inj e)
  unfold onCategory
  rw [Node.modifyField_modifyField, Node.modifyField_modifyField]
  exact congrArg Document.mk (Node.modifyField_congr fun categories _ =>
    Node.modifyField_comm hkey _ _ categories)

theorem onCategory_id (kind : ComponentKind) (doc : Document) : doc.onCategory kind id = doc := by
  have hcategories : Node.modifyField id kind.key = id :=
    funext fun node => Node.modifyField_id kind.key node
  rw [onCategory, Node.onEntries_id, hcategories, Node.modifyField_id]

/-- Change the components of each listed category. -/
def onCategories (kinds : List ComponentKind)
    (f : ComponentKind → Entries Node → Entries Node) (doc : Document) : Document :=
  kinds.foldl (fun doc kind => doc.onCategory kind (f kind)) doc

theorem onCategories_cons (first : ComponentKind) (rest : List ComponentKind)
    (f : ComponentKind → Entries Node → Entries Node) (doc : Document) :
    doc.onCategories (first :: rest) f = (doc.onCategory first (f first)).onCategories rest f := rfl

theorem components?_onCategories {kinds : List ComponentKind} (hkinds : kinds.Nodup)
    (f : ComponentKind → Entries Node → Entries Node) (doc : Document) (kind : ComponentKind) :
    (doc.onCategories kinds f).components? kind =
      if kind ∈ kinds then (doc.components? kind).map (f kind) else doc.components? kind := by
  induction kinds generalizing doc with
  | nil => simp [onCategories]
  | cons first rest ih =>
    obtain ⟨hfirst, hrest⟩ := List.nodup_cons.1 hkinds
    rw [onCategories_cons, ih hrest]
    by_cases hk : kind = first
    · subst hk
      simp [hfirst, components?_onCategory_self]
    · simp [hk, components?_onCategory_of_ne hk]

theorem onCategories_congr {kinds : List ComponentKind} (hkinds : kinds.Nodup) {doc : Document}
    {f g : ComponentKind → Entries Node → Entries Node}
    (h : ∀ kind ∈ kinds, ∀ entries, doc.components? kind = some entries →
      f kind entries = g kind entries) :
    doc.onCategories kinds f = doc.onCategories kinds g := by
  induction kinds generalizing doc with
  | nil => rfl
  | cons first rest ih =>
    obtain ⟨hfirst, hrest⟩ := List.nodup_cons.1 hkinds
    have hhead : doc.onCategory first (f first) = doc.onCategory first (g first) :=
      onCategory_congr (h first List.mem_cons_self)
    have htail : (doc.onCategory first (g first)).onCategories rest f =
        (doc.onCategory first (g first)).onCategories rest g := by
      refine ih hrest fun kind hkind entries hentries => ?_
      have hne : kind ≠ first := fun e => hfirst (e ▸ hkind)
      rw [components?_onCategory_of_ne hne] at hentries
      exact h kind (List.mem_cons_of_mem _ hkind) entries hentries
    rw [onCategories_cons, onCategories_cons, hhead, htail]

theorem onCategories_onCategory {kinds : List ComponentKind} {kind : ComponentKind}
    (h : kind ∉ kinds) (f : ComponentKind → Entries Node → Entries Node)
    (g : Entries Node → Entries Node) (doc : Document) :
    (doc.onCategories kinds f).onCategory kind g =
      (doc.onCategory kind g).onCategories kinds f := by
  induction kinds generalizing doc with
  | nil => rfl
  | cons first rest ih =>
    obtain ⟨hfirst, hrest⟩ := not_or.1 (fun e => h (List.mem_cons.2 e))
    rw [onCategories_cons, onCategories_cons, ih hrest, onCategory_comm (Ne.symm hfirst)]

theorem onCategories_onCategories {kinds : List ComponentKind} (hkinds : kinds.Nodup)
    (f g : ComponentKind → Entries Node → Entries Node) (doc : Document) :
    (doc.onCategories kinds f).onCategories kinds g =
      doc.onCategories kinds (fun kind => g kind ∘ f kind) := by
  induction kinds generalizing doc with
  | nil => rfl
  | cons first rest ih =>
    obtain ⟨hfirst, hrest⟩ := List.nodup_cons.1 hkinds
    have hmove := onCategories_onCategory hfirst f (g first) (doc.onCategory first (f first))
    have hstep := ih hrest (doc.onCategory first (g first ∘ f first))
    rw [onCategory_onCategory] at hmove
    rw [onCategories_cons, onCategories_cons, onCategories_cons, hmove, hstep]

/-- A change of the root goes through that of several categories if it goes through each. -/
theorem root_onCategories {change : Node → Node} {kinds : List ComponentKind} (hkinds : kinds.Nodup)
    {f g : ComponentKind → Entries Node → Entries Node} {doc : Document}
    (h : ∀ kind ∈ kinds, ∀ start : Document, start.components? kind = doc.components? kind →
      change (start.onCategory kind (f kind)).root =
        (onCategory kind (g kind) ⟨change start.root⟩).root) :
    change (doc.onCategories kinds f).root = (onCategories kinds g ⟨change doc.root⟩).root := by
  induction kinds generalizing doc with
  | nil => rfl
  | cons first rest ih =>
    obtain ⟨hfirst, hrest⟩ := List.nodup_cons.1 hkinds
    have hhead := h first List.mem_cons_self doc rfl
    have hkept : ∀ kind ∈ rest, (doc.onCategory first (f first)).components? kind =
        doc.components? kind := by
      intro kind hkind
      have hne : kind ≠ first := fun e => hfirst (e ▸ hkind)
      exact components?_onCategory_of_ne hne _ doc
    have htail := ih hrest fun kind hkind start hstart =>
      h kind (List.mem_cons_of_mem _ hkind) start (hstart.trans (hkept kind hkind))
    rw [hhead] at htail
    exact htail

/-- The top-level values other than the components stay. -/
theorem field?_onCategories {key : String} (h : key ≠ componentsKey)
    (kinds : List ComponentKind) (f : ComponentKind → Entries Node → Entries Node)
    (doc : Document) : (doc.onCategories kinds f).root.field? key = doc.root.field? key := by
  induction kinds generalizing doc with
  | nil => rfl
  | cons first rest ih =>
    exact (ih (doc.onCategory first (f first))).trans (Node.field?_modifyField_of_ne h _ _)

theorem onRoot_eq_ok {ε α : Type} {edit : Edit ε Node α} {doc changed : Document} {answer : α} :
    onRoot edit doc = .ok answer changed ↔
      ∃ root, edit doc.root = .ok answer root ∧ changed = ⟨root⟩ :=
  Edit.onPart_eq_ok

theorem onRoot_eq_error {ε α : Type} {edit : Edit ε Node α} {doc changed : Document} {fault : ε}
    (h : onRoot edit doc = .error fault changed) :
    ∃ root, edit doc.root = .error fault root ∧ changed = ⟨root⟩ :=
  Edit.onPart_eq_error h

theorem keeps_onRoot {ε α γ : Type} {edit : Edit ε Node α} {f : Node → γ} (h : edit.Keeps f) :
    (onRoot edit).Keeps fun doc => f doc.root := by
  intro doc
  have hroot := h doc.root
  unfold Edit.after onRoot Edit.onPart at *
  cases hedit : edit doc.root <;> simpa [hedit] using hroot

/-- Without a mapping under the key nothing is edited. -/
theorem inField_of_none {ε α : Type} {key : String} {absent : Edit ε Node α}
    {edit : Edit ε (Entries Node) α} {node : Node}
    (h : (node.field? key).bind Node.entries? = none) :
    inField key absent edit node = absent node := by
  cases node with
  | scalar value => rfl
  | sequence items => rfl
  | mapping entries =>
    rw [Node.field?] at h
    cases hvalue : Entries.get? entries key with
    | none => simp [inField, hvalue]
    | some value =>
      cases value with
      | scalar value => simp [inField, hvalue]
      | sequence items => simp [inField, hvalue]
      | mapping inner => simp [hvalue, Node.entries?] at h

/-- With a mapping under the key, the edit is a change of the node. -/
theorem inField_of_some {ε α : Type} {key : String} {node : Node} {entries : Entries Node}
    (h : (node.field? key).bind Node.entries? = some entries) (absent : Edit ε Node α)
    (edit : Edit ε (Entries Node) α) :
    inField key absent edit node =
      Edit.onPart entries (fun inner => node.modifyField (fun _ => .mapping inner) key) edit := by
  have hvalue := Node.bind_entries?_eq_some.1 h
  cases node with
  | scalar value => simp [Node.field?] at hvalue
  | sequence items => simp [Node.field?] at hvalue
  | mapping outer =>
    rw [Node.field?] at hvalue
    have hstore := fun inner => Entries.insert_eq_modify hvalue fun _ => Node.mapping inner
    simp only [inField, hvalue, Node.modifyField_mapping, hstore]

/-- An edit under a key that must be there, as a change of the node. -/
theorem inField_throw_eq_ok {ε α : Type} {key : String} {fault : ε} {edit : Edit ε (Entries Node) α}
    {node changed : Node} {answer : α} :
    inField key (throw fault) edit node = .ok answer changed ↔
      ∃ entries inner, (node.field? key).bind Node.entries? = some entries ∧
        edit entries = .ok answer inner ∧
        changed = node.modifyField (fun _ => .mapping inner) key := by
  cases hfield : (node.field? key).bind Node.entries? with
  | none =>
    rw [inField_of_none hfield]
    constructor
    · exact fun h => absurd h Edit.throw_ne_ok
    · rintro ⟨_, _, hnone, -⟩
      simp at hnone
  | some entries => simp [inField_of_some hfield, Edit.onPart_eq_ok]

/-- An edit under a key keeps what no change of the value there can affect. -/
theorem keeps_inField {ε α γ : Type} {key : String} {absent : Edit ε Node α}
    {edit : Edit ε (Entries Node) α} {f : Node → γ}
    (hf : ∀ (change : Node → Node) node, f (node.modifyField change key) = f node)
    (habsent : absent.Keeps f) : (inField key absent edit).Keeps f := by
  intro node
  cases hfield : (node.field? key).bind Node.entries? with
  | none =>
    rw [Edit.after, inField_of_none hfield]
    exact habsent node
  | some inner =>
    have hvalue := Node.bind_entries?_eq_some.1 hfield
    cases node with
    | scalar value => simp [Node.field?] at hvalue
    | sequence items => simp [Node.field?] at hvalue
    | mapping entries =>
      rw [Node.field?] at hvalue
      have hstore : ∀ changed,
          f (.mapping (Entries.insert entries key changed)) = f (.mapping entries) := by
        intro changed
        rw [Entries.insert_eq_modify hvalue fun _ => changed]
        exact hf _ (.mapping entries)
      cases hedit : edit inner <;> simp [Edit.after, inField, hvalue, Edit.onPart, hedit, hstore]

/-- An edit of a mapping under a key that cannot fail, as a change of the node. -/
theorem inField_eq_ok {ε α : Type} {edit : Edit ε (Entries Node) α}
    {f : Entries Node → Entries Node}
    (hedit : ∀ entries, ∃ answer, edit entries = .ok answer (f entries)) (key : String)
    (absent : α) (node : Node) :
    ∃ answer, inField key (pure absent) edit node =
      .ok answer (node.modifyField (Node.onEntries f) key) := by
  cases node with
  | scalar value => exact ⟨absent, rfl⟩
  | sequence items => exact ⟨absent, rfl⟩
  | mapping entries =>
    simp only [inField, Node.modifyField_mapping]
    cases hvalue : Entries.get? entries key with
    | none => exact ⟨absent, by rw [Entries.modify_of_get?_none hvalue]; rfl⟩
    | some value =>
      rw [← Entries.insert_eq_modify hvalue]
      cases value with
      | scalar value =>
        exact ⟨absent, by rw [Node.onEntries_scalar, Entries.insert_of_get? hvalue]; rfl⟩
      | sequence items =>
        exact ⟨absent, by rw [Node.onEntries_sequence, Entries.insert_of_get? hvalue]; rfl⟩
      | mapping inner =>
        obtain ⟨answer, hanswer⟩ := hedit inner
        exact ⟨answer, by rw [Node.onEntries_mapping]; simp only [Edit.onPart, hanswer]⟩

/-- An edit of the components of a category, as a change of the document. -/
theorem onComponents_eq_ok (ε : Type) {α : Type} (kind : ComponentKind) (absent : α)
    (edit : Entries Node → α × Entries Node) (doc : Document) :
    ∃ answer, (onComponents kind absent edit : Edit ε Document α) doc =
      .ok answer (doc.onCategory kind fun entries => (edit entries).2) := by
  let f : Entries Node → Entries Node :=
    Entries.modify (Node.onEntries fun entries => (edit entries).2) kind.key
  have hroot : ∀ {inner : Edit ε Node α}, (∃ answer, inner doc.root =
      .ok answer (doc.root.modifyField (Node.onEntries f) componentsKey)) →
      ∃ answer, onRoot inner doc =
        .ok answer (doc.onCategory kind fun entries => (edit entries).2) :=
    fun ⟨answer, hanswer⟩ => ⟨answer, onRoot_eq_ok.2 ⟨_, hanswer, rfl⟩⟩
  refine hroot (inField_eq_ok (fun categories => ?_) componentsKey absent doc.root)
  cases hcategory : Entries.get? categories kind.key with
  | none => exact ⟨absent, by simp only [f, Entries.modify_of_get?_none hcategory]⟩
  | some category =>
    simp only [f, ← Entries.insert_eq_modify hcategory]
    cases category with
    | mapping components => exact ⟨(edit components).1, rfl⟩
    | sequence items =>
      exact ⟨absent, by rw [Node.onEntries_sequence, Entries.insert_of_get? hcategory]⟩
    | scalar value =>
      exact ⟨absent, by rw [Node.onEntries_scalar, Entries.insert_of_get? hcategory]⟩

/-- Taking a component out changes its category only. -/
theorem without_eq_onCategory (doc : Document) (reference : Reference) :
    doc.without reference = doc.onCategory reference.kind (Entries.erase · reference.name) := by
  obtain ⟨answer, hdelete⟩ := onComponents_eq_ok Empty reference.kind none
    (fun components => (Entries.get? components reference.name,
      Entries.erase components reference.name)) doc
  unfold without deleteComponent
  rw [hdelete]

end Document
end ApiTidy
