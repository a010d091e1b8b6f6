import ApiTidy.Proofs.Extraction

/-!
Extractions that fail. Storing a schema fails before it changes anything, and writing at an address
where there was a node can fail only if storing the schema took the way to it: then the address
leads into the schema, and the schema has been replaced when the extraction fails.
-/
namespace ApiTidy.Document
variable {doc changed : Document} {name address key : String} {kind : ComponentKind}
  {component : Node} {fault : Failure}

/-- An edit of the entries under a key is atomic, even if it has to make them, when it cannot fail
where there are none. -/
theorem inOwnField_atomic {α : Type} {edit : Edit Failure (Entries Node) α} (hedit : edit.Atomic)
    (hempty : ∀ fault changed, edit [] ≠ .error fault changed) :
    (inOwnField key address edit).Atomic := by
  intro entries fault changed h
  unfold inOwnField at h
  split at h
  next inner hinner =>
    obtain ⟨left, hleft, rfl⟩ := Edit.onPart_eq_error h
    rw [hedit hleft]
    cases hvalue : Entries.get? entries key with
    | none =>
      rw [hvalue, Option.getD_none] at hinner
      obtain rfl := Node.mapping.inj hinner
      exact absurd hleft (hempty fault left)
    | some value =>
      rw [hvalue, Option.getD_some] at hinner
      rw [← hinner, Entries.insert_of_get? hvalue]
  next => exact (EStateM.Result.error.inj h).2.symm

theorem inOwnField_nil_ne_error {α : Type} {edit : Edit Failure (Entries Node) α}
    (hempty : ∀ fault changed, edit [] ≠ .error fault changed) (fault : Failure)
    (changed : Entries Node) : inOwnField key address edit [] ≠ .error fault changed := by
  intro h
  obtain ⟨left, hleft, -⟩ := Edit.onPart_eq_error h
  exact hempty fault left hleft

theorem ofPair_ne_error {ε σ α : Type} {f : σ → α × σ} {value changed : σ} {fault : ε} :
    Edit.ofPair f value ≠ .error fault changed := by
  simp [Edit.ofPair]

/-- Storing a component fails before it changes anything. -/
theorem setComponent_atomic (kind : ComponentKind) (name : String) (component : Node) :
    (setComponent kind name component).Atomic := by
  intro doc fault changed h
  obtain ⟨root, hroot, rfl⟩ := onRoot_eq_error h
  split at hroot
  next entries hentries =>
    have hinner : Edit.Atomic (inOwnField kind.key (componentsKey ++ "." ++ kind.key) <|
        Edit.ofPair fun components =>
          (Entries.get? components name, Entries.insert components name component)) :=
      inOwnField_atomic (fun _ _ _ he => absurd he ofPair_ne_error) fun _ _ => ofPair_ne_error
    have houter : Edit.Atomic (inOwnField componentsKey componentsKey _) :=
      inOwnField_atomic hinner (inOwnField_nil_ne_error fun _ _ => ofPair_ne_error)
    rw [houter.onPart hroot, ← hentries]
  next => rw [← (EStateM.Result.error.inj hroot).2]

/-- Storing a component is writing under its keys. -/
theorem place_of_setComponent {old : Option Node} (address : String)
    (h : setComponent kind name component doc = .ok old changed) :
    Node.place address component (componentKeys ⟨kind, name⟩) doc.root = .ok () changed.root := by
  obtain ⟨root, hroot, rfl⟩ := onRoot_eq_ok.1 h
  split at hroot
  next entries hentries =>
    obtain ⟨regions, hregions, rfl⟩ := Edit.onPart_eq_ok.1 hroot
    obtain ⟨_, _, hcategories, hedit, rfl⟩ := inOwnField_eq_ok hregions
    obtain ⟨_, _, hcomponents, hstore, rfl⟩ := inOwnField_eq_ok hedit
    rw [← (EStateM.Result.ok.inj hstore).2]
    simp [componentKeys, Node.place, Edit.onPart, hentries, hcategories, hcomponents]
  next => simp at hroot

/-- Whether an address leads to something inside a component. -/
def Inside (address : String) (reference : Reference) : Prop :=
  componentKeys reference <+: (Address.parse address).segments ∧
    componentKeys reference ≠ (Address.parse address).segments

instance (address : String) (reference : Reference) : Decidable (Inside address reference) :=
  inferInstanceAs (Decidable (_ ∧ _))

/-- Where there is a node one can still be written after a component was stored, but inside the
component. -/
theorem set_of_lookup_setComponent {old : Option Node} {found value : Node}
    (hlookup : doc.root.lookup address = .ok found)
    (hstored : setComponent kind name component doc = .ok old changed)
    (houtside : ¬ Inside address ⟨kind, name⟩) :
    ∃ root, Node.set address value changed.root = .ok () root := by
  refine Node.place_of_follow_place (place_of_setComponent address hstored) ?_ hlookup
    fun hway => ?_
  · rw [← target?_eq_under?]
    exact component?_setComponent hstored
  · by_contra hne
    exact houtside ⟨hway, hne⟩

/-- The steps of an extraction that fails: nothing was stored, or the schema was stored and the
reference could not be written. -/
theorem extractSchema_error_cases
    (h : doc.extractSchema name address = .error fault changed) :
    changed = doc ∨ ∃ subtree old cause, doc.root.lookup address = .ok subtree ∧
      doc.setComponent .schemas name subtree = .ok old changed ∧
      Node.set address (Reference.mk .schemas name).toNode changed.root =
        .error cause changed.root := by
  simp only [extractSchema] at h
  split at h
  next => exact .inl (EStateM.Result.error.inj h).2.symm
  next subtree hsubtree =>
    split at h
    next => simp at h
    next =>
      split at h
      next cause between hcause =>
        obtain ⟨-, rfl⟩ := EStateM.Result.error.inj h
        exact .inl (setComponent_atomic .schemas name subtree hcause)
      next old stored hstored =>
        rcases Edit.bind_eq_error.1 h with hwrite | ⟨_, _, -, hpure⟩
        · obtain ⟨root, hroot, rfl⟩ := onRoot_eq_error hwrite
          obtain ⟨cause, hset, -⟩ := Edit.mapError_eq_error hroot
          obtain rfl := Node.set_atomic address _ hset
          exact .inr ⟨subtree, old, cause, hsubtree, hstored, hset⟩
        · exact absurd hpure Edit.pure_ne_error

/-- An extraction that fails leaves the document as it was, unless the address leads into the schema
itself. Then the subtree may have taken the place of the schema when the reference to it cannot be
written. -/
theorem extractSchema_eq_error (h : doc.extractSchema name address = .error fault changed) :
    changed = doc ∨ Inside address ⟨.schemas, name⟩ ∧ ∃ subtree old,
      doc.root.lookup address = .ok subtree ∧
        doc.setComponent .schemas name subtree = .ok old changed := by
  rcases extractSchema_error_cases h with rfl | ⟨subtree, old, cause, hsubtree, hstored, hset⟩
  · exact .inl rfl
  · refine .inr ⟨?_, subtree, old, hsubtree, hstored⟩
    by_contra houtside
    obtain ⟨written, hwritten⟩ := set_of_lookup_setComponent hsubtree hstored houtside
    rw [hwritten] at hset
    simp at hset

/-- A description with a schema that holds something that is no container. -/
def shallow : Document :=
  ⟨.mapping [("components", .mapping [("schemas", .mapping [("P", .mapping [("x", .null)])])])]⟩

theorem extractSchema_eq_error_missing :
    ∃ changed, shallow.extractSchema "Q" "components.schemas.P.y" =
        .error (.address (.missing "components.schemas.P.y")) changed ∧
      ¬ Inside "components.schemas.P.y" ⟨.schemas, "Q"⟩ ∧ changed = shallow := by
  have hfails : shallow.extractSchema "Q" "components.schemas.P.y" =
    .error (.address (.missing "components.schemas.P.y")) shallow := rfl
  have houtside : ¬ Inside "components.schemas.P.y" ⟨.schemas, "Q"⟩ := by decide
  refine ⟨shallow, hfails, houtside, ?_⟩
  exact (extractSchema_eq_error hfails).resolve_right fun hinside => houtside hinside.1

/-- Not every extraction that fails leaves the document as it was. -/
theorem not_all_failed_extractions_unchanged :
    ∃ changed, shallow.extractSchema "P" "components.schemas.P.x" =
        .error (.address (.notContainer "components.schemas.P.x" "x")) changed ∧
      changed.component? .schemas "P" = some .null ∧ changed ≠ shallow := by
  refine ⟨_, rfl, rfl, fun hsame => ?_⟩
  have hcomponent := congrArg (·.component? .schemas "P") hsame
  cases hcomponent

end ApiTidy.Document
