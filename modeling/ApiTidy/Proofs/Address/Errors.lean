import ApiTidy.Proofs.Address.Moving
import ApiTidy.Proofs.Address.Writing
import ApiTidy.Proofs.Except

/-!
What the errors of lookups and edits name. All of them name the full address that was asked for, but
for those of a deletion whose way to the container is blocked: these name the container.
-/
namespace ApiTidy

theorem Address.text_parse (text : String) : (parse text).text = text := by
  unfold parse Address.text
  split
  next h =>
    rw [String.toList_eq_nil_iff.1 h]
    rfl
  next => simp [Function.comp_def, Text.join_pieces]

theorem Address.text_child {address : Address} (h : address.segments ≠ []) (segment : String) :
    (address.child segment).text = address.text ++ "." ++ segment := by
  have hpieces : address.segments.map String.toList ≠ [] := by simpa using h
  apply String.toList_inj.1
  simp [Address.text, child, Text.join_concat hpieces]

/-- Below a parent that is not the root, an address is that of the parent and one segment. -/
theorem Address.eq_text_append {text last : String} {parent : Address}
    (h : (parse text).splitLast? = some (parent, last)) (hparent : parent.segments ≠ []) :
    text = parent.text ++ "." ++ last := by
  have hchild : parse text = parent.child last :=
    congrArg Address.mk (splitLast?_eq_some.1 h)
  rw [← text_child hparent, ← hchild, text_parse]

/-- Whether an error says which address failed. -/
def AddressError.Names (fault : AddressError) (address : String) : Prop :=
  fault.address? = some address

instance (fault : AddressError) (address : String) : Decidable (fault.Names address) :=
  inferInstanceAs (Decidable (_ = _))

theorem Address.place_eq_error {address segment : String} {length : Nat} {fault : AddressError}
    (h : place address segment length = .error fault) :
    fault = .notNumeric address segment ∨ ∃ index, fault = .outOfRange address index length := by
  unfold place at h
  split at h
  next => exact .inl (Except.error.inj h).symm
  next index hindex =>
    split at h
    · simp at h
    · exact .inr ⟨index, (Except.error.inj h).symm⟩

theorem Address.names_of_place {address segment : String} {length : Nat} {fault : AddressError}
    (h : place address segment length = .error fault) : fault.Names address := by
  obtain rfl | ⟨index, rfl⟩ := place_eq_error h <;> rfl

namespace Node
variable {address last : String} {segments : List String} {tree changed node : Node}
  {fault : AddressError}

theorem names_of_step {segment : String} (h : node.step address segment = .error fault) :
    fault.Names address := by
  cases node with
  | scalar value => exact Except.error.inj h ▸ rfl
  | mapping entries =>
    simp only [step] at h
    split at h
    · simp at h
    · exact Except.error.inj h ▸ rfl
  | sequence items =>
    simp only [step] at h
    split at h
    next => simp at h
    next cause hplace => exact Except.error.inj h ▸ Address.names_of_place hplace

theorem follow_cons_eq_error {segment : String} :
    follow address (segment :: segments) tree = .error fault ↔
      tree.step address segment = .error fault ∨
        ∃ child, tree.step address segment = .ok child ∧
          follow address segments child = .error fault := by
  rw [follow]
  cases tree.step address segment <;> simp

theorem names_of_follow (h : follow address segments tree = .error fault) :
    fault.Names address := by
  induction segments generalizing tree with
  | nil => simp [follow] at h
  | cons segment rest ih =>
    obtain hstep | ⟨child, -, hrest⟩ := follow_cons_eq_error.1 h
    · exact names_of_step hstep
    · exact ih hrest

theorem names_of_lookup (h : tree.lookup address = .error fault) : fault.Names address :=
  names_of_follow h

/-- Looking for a node of some kind fails as a lookup does, or it says what is there instead. -/
theorem names_of_bind_lookup {α : Type} {next : Node → Except AddressError α}
    (hnext : ∀ found fault, next found = .error fault → fault.Names address)
    (h : (tree.lookup address >>= next) = .error fault) : fault.Names address := by
  obtain hlookup | ⟨found, -, hfound⟩ := Except.bind_eq_error.1 h
  · exact names_of_lookup hlookup
  · exact hnext found fault hfound

theorem names_of_lookupMapping (h : tree.lookupMapping address = .error fault) :
    fault.Names address := by
  refine names_of_bind_lookup (fun found cause hcause => ?_) h
  cases found <;> simp at hcause <;> exact hcause ▸ rfl

theorem names_of_lookupSequence (h : tree.lookupSequence address = .error fault) :
    fault.Names address := by
  refine names_of_bind_lookup (fun found cause hcause => ?_) h
  cases found <;> simp at hcause <;> exact hcause ▸ rfl

theorem names_of_lookupString (h : tree.lookupString address = .error fault) :
    fault.Names address := by
  refine names_of_bind_lookup (fun found cause hcause => ?_) h
  split at hcause
  · simp at hcause
  · exact Except.error.inj hcause ▸ rfl

/-- Editing a node in place fails as a lookup does, or as the edit of the node. -/
theorem names_of_editAt {α : Type} {edit : Edit AddressError Node α}
    (hedit : ∀ found fault after, edit found = .error fault after → fault.Names address)
    (h : editAt address edit tree = .error fault changed) : fault.Names address := by
  obtain hfollow | ⟨found, -, after, hfound⟩ := exists_editAlong_eq_error.1 ⟨changed, h⟩
  · exact names_of_follow hfollow
  · exact hedit found fault after hfound

theorem names_of_editMappingAt {α : Type} {edit : Entries Node → α × Entries Node}
    (h : editMappingAt address edit tree = .error fault changed) : fault.Names address := by
  refine names_of_editAt (fun found cause after hcause => ?_) h
  cases found <;> simp at hcause <;> exact hcause.1 ▸ rfl

theorem names_of_editSequenceAt {α : Type} {edit : List Node → α × List Node}
    (h : editSequenceAt address edit tree = .error fault changed) : fault.Names address := by
  refine names_of_editAt (fun found cause after hcause => ?_) h
  cases found <;> simp at hcause <;> exact hcause.1 ▸ rfl

theorem names_of_place {value : Node}
    (h : place address value segments tree = .error fault changed) : fault.Names address := by
  induction segments generalizing tree changed with
  | nil => simp [place] at h
  | cons segment rest ih =>
    cases tree with
    | scalar old =>
      simp only [place] at h
      exact (EStateM.Result.error.inj h).1 ▸ rfl
    | mapping entries =>
      rw [place_mapping] at h
      obtain ⟨inner, hinner, -⟩ := Edit.onPart_eq_error h
      exact ih hinner
    | sequence items =>
      cases hplace : Address.place address segment items.length with
      | error cause =>
        rw [place_sequence_of_error hplace] at h
        exact (EStateM.Result.error.inj h).1 ▸ Address.names_of_place hplace
      | ok index =>
        rw [place_sequence hplace] at h
        obtain ⟨inner, hinner, -⟩ := Edit.onPart_eq_error h
        exact ih hinner

/-- Nothing is taken out exactly if nothing is found one step below. -/
theorem exists_takeOut_eq_error :
    (∃ after, takeOut address last node = .error fault after) ↔
      node.step address last = .error fault := by
  cases node with
  | scalar value => simp [takeOut, step]
  | sequence items => cases h : Address.place address last items.length <;> simp [takeOut, step, h]
  | mapping entries =>
    have hposition := Entries.position?_isSome entries last
    cases hget : Entries.get? entries last with
    | none => simp [takeOut, step, hget]
    | some value =>
      rw [hget] at hposition
      obtain ⟨index, hindex⟩ := Option.isSome_iff_exists.1 hposition
      simp [takeOut, step, hget, hindex]

theorem asMissing_of_names (h : fault.Names address) : asMissing address fault = fault := by
  cases fault with
  | missing other =>
    obtain rfl : other = address := Option.some.inj h
    rfl
  | _ => rfl

/-- A node that a segment does not lead on from refuses it, unless a key is missing. -/
theorem refuses_iff_of_step_eq_error {segment : String}
    (h : node.step address segment = .error fault) :
    node.Refuses segment ↔ fault.isMissing = false := by
  cases node with
  | scalar value =>
    obtain rfl := Except.error.inj h
    exact iff_of_true trivial rfl
  | mapping entries =>
    simp only [step] at h
    split at h
    · simp at h
    · obtain rfl := Except.error.inj h
      exact iff_of_false id (by simp [AddressError.isMissing])
  | sequence items =>
    simp only [step] at h
    split at h
    next => simp at h
    next cause hplace =>
      obtain rfl := Except.error.inj h
      refine iff_of_true (refuses_of_place hplace) ?_
      obtain rfl | ⟨index, rfl⟩ := Address.place_eq_error hplace <;> rfl

/-- A lookup that fails is blocked, unless a key is missing. -/
theorem blocked_iff_of_follow_eq_error (h : follow address segments tree = .error fault) :
    Blocked segments tree ↔ fault.isMissing = false := by
  induction segments generalizing tree with
  | nil => simp [follow] at h
  | cons segment rest ih =>
    obtain hstep | ⟨child, hstep, hrest⟩ := follow_cons_eq_error.1 h
    · rw [blocked_cons, ← refuses_iff_of_step_eq_error hstep, or_iff_left]
      rintro ⟨way, child, hway, -⟩
      rw [step_eq_ok.2 ⟨way, hway⟩] at hstep
      simp at hstep
    · obtain ⟨way, hway⟩ := step_eq_ok.1 hstep
      rw [blocked_cons_of_leads hway, ih hrest]

theorem not_blocked_of_follow_eq_ok (h : follow address segments tree = .ok node) :
    ¬ Blocked segments tree := by
  intro hblocked
  have hplaced : ∃ written, place address node segments tree = .ok () written := place_of_follow h
  have hfails : ∃ fault changed, place address node segments tree = .error fault changed :=
    exists_place_eq_error.2 hblocked
  obtain ⟨written, hok⟩ := hplaced
  obtain ⟨fault, changed, herror⟩ := hfails
  simp [hok] at herror

/-- What the error of a deletion names. If the way to the parent of the node is blocked, it is the
parent, so that the last segment is missing from it. -/
inductive NamedInDeletion (address : String) (tree : Node) (fault : AddressError) : Prop
  | full {parent : Address} {last : String} :
      (Address.parse address).splitLast? = some (parent, last) →
      ¬ Blocked parent.segments tree → fault.Names address → NamedInDeletion address tree fault
  | parent {parent : Address} {last : String} :
      (Address.parse address).splitLast? = some (parent, last) →
      Blocked parent.segments tree → address = parent.text ++ "." ++ last →
      fault.Names parent.text → NamedInDeletion address tree fault

/-- If the parent is not found, the full address is named only where a key is missing. -/
theorem namedInDeletion_of_follow {parent : Address}
    (hsplit : (Address.parse address).splitLast? = some (parent, last))
    (h : follow parent.text parent.segments tree = .error fault) :
    NamedInDeletion address tree (asMissing address fault) := by
  have hblocked := blocked_iff_of_follow_eq_error h
  cases hmissing : fault.isMissing with
  | true =>
    cases fault with
    | missing other => exact .full hsplit (by simp [hblocked, hmissing]) rfl
    | _ => simp [AddressError.isMissing] at hmissing
  | false =>
    have hway := hblocked.2 hmissing
    have hparent : parent.segments ≠ [] := fun hnil => blocked_nil (hnil ▸ hway)
    refine .parent hsplit hway (Address.eq_text_append hsplit hparent) ?_
    cases fault with
    | missing other => simp [AddressError.isMissing] at hmissing
    | _ => exact names_of_follow h

theorem namedInDeletion (h : delete address tree = .error fault changed) (hroot : fault ≠ .root) :
    NamedInDeletion address tree fault := by
  have hdetach := detach_eq_error.2 h
  cases hsplit : (Address.parse address).splitLast? with
  | none =>
    simp only [detach, hsplit] at hdetach
    exact absurd (EStateM.Result.error.inj hdetach).1.symm hroot
  | some parts =>
    obtain ⟨parent, last⟩ := parts
    simp only [detach, hsplit] at hdetach
    obtain ⟨cause, hcause, rfl⟩ := Edit.mapError_eq_error hdetach
    obtain hfollow | ⟨found, hfound, htake⟩ := exists_editAlong_eq_error.1 ⟨changed, hcause⟩
    · exact namedInDeletion_of_follow hsplit hfollow
    · have hnames := names_of_step (exists_takeOut_eq_error.1 htake)
      rw [asMissing_of_names hnames]
      exact .full hsplit (not_blocked_of_follow_eq_ok hfound) hnames

/-- What the errors of lookups and edits at an address name. -/
structure NamedInErrors (address : String) (tree : Node) : Prop where
  lookup : ∀ fault, tree.lookup address = .error fault → fault.Names address
  lookupMapping : ∀ fault, tree.lookupMapping address = .error fault → fault.Names address
  lookupSequence : ∀ fault, tree.lookupSequence address = .error fault → fault.Names address
  lookupString : ∀ fault, tree.lookupString address = .error fault → fault.Names address
  editAt : ∀ {α : Type} (edit : Node → α × Node) (fault : AddressError) (changed : Node),
    editAt address (Edit.ofPair edit) tree = .error fault changed → fault.Names address
  editMappingAt : ∀ {α : Type} (edit : Entries Node → α × Entries Node) (fault : AddressError)
    (changed : Node), editMappingAt address edit tree = .error fault changed → fault.Names address
  editSequenceAt : ∀ {α : Type} (edit : List Node → α × List Node) (fault : AddressError)
    (changed : Node), editSequenceAt address edit tree = .error fault changed → fault.Names address
  set : ∀ value fault changed, set address value tree = .error fault changed → fault.Names address
  delete : ∀ fault changed, delete address tree = .error fault changed → fault ≠ .root →
    NamedInDeletion address tree fault
  move : ∀ target fault changed, move address target tree = .error fault changed → fault ≠ .root →
    ((∃ after, Node.delete address tree = .error fault after) ∧
        NamedInDeletion address tree fault) ∨
      ((∃ node without, Node.delete address tree = .ok node without) ∧ fault.Names target)

/-- Every error of a lookup or an edit names the full address, unless the way to the parent of a node
that is to be deleted or moved is blocked. -/
theorem errors_name_address (address : String) (tree : Node) : NamedInErrors address tree := by
  constructor
  case lookup => exact fun fault => names_of_lookup
  case lookupMapping => exact fun fault => names_of_lookupMapping
  case lookupSequence => exact fun fault => names_of_lookupSequence
  case lookupString => exact fun fault => names_of_lookupString
  case editAt =>
    intro α edit fault changed h
    exact names_of_editAt (fun found cause after hcause => by simp [Edit.ofPair] at hcause) h
  case editMappingAt => exact fun edit fault changed => names_of_editMappingAt
  case editSequenceAt => exact fun edit fault changed => names_of_editSequenceAt
  case set => exact fun value fault changed => names_of_place
  case delete => exact fun fault changed => namedInDeletion
  case move =>
    intro target fault changed h hroot
    obtain ⟨-, hdelete | ⟨hdelete, hset⟩⟩ := move_eq_error.1 h
    · exact .inl ⟨⟨_, hdelete⟩, namedInDeletion hdelete hroot⟩
    · exact .inr ⟨⟨_, _, hdelete⟩, names_of_place hset⟩

/-- A mapping with a scalar in it. -/
def shallow : Node := .mapping [("a", .null)]

theorem errors_name_address_shallow :
    (AddressError.notContainer "a.b.c" "b").Names "a.b.c" ∧
      NamedInDeletion "a.b.c" shallow (.notContainer "a.b" "b") ∧
      NamedInDeletion "b.c.d" shallow (.missing "b.c.d") := by
  have hblocked := errors_name_address "a.b.c" shallow
  have hmissing := errors_name_address "b.c.d" shallow
  exact ⟨hblocked.lookup _ rfl, hblocked.delete _ _ rfl (by decide),
    hmissing.delete _ _ rfl (by decide)⟩

/-- The error of a deletion below a scalar leaves out the last segment. -/
theorem not_all_errors_name_address :
    ¬ ∀ (address : String) (tree changed : Node) (fault : AddressError),
      delete address tree = .error fault changed → fault ≠ .root → fault.Names address := by
  intro h
  have hnames := h "a.b.c" shallow _ (.notContainer "a.b" "b") rfl (by decide)
  exact absurd hnames (by decide)

end Node
end ApiTidy
