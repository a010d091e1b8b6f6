import ApiTidy.Proofs.MediaTypes
import ApiTidy.Responses

/-! After a completion every response has the fields, or refers to another one. -/
namespace ApiTidy.Responses
variable {defaults : List FieldDefault}

theorem contains_fillFields_of_contains {entries : Entries Node} {key : String}
    (h : Entries.contains entries key = true) (defaults : List FieldDefault) :
    Entries.contains (fillFields defaults entries).1 key = true := by
  induction defaults generalizing entries with
  | nil => exact h
  | cons default rest ih =>
    rw [fillFields]
    split
    · exact ih h
    · refine ih ?_
      rw [Entries.contains_eq_isSome] at h ⊢
      by_cases hkey : key = default.field
      · simp [hkey]
      · rwa [Entries.get?_insert_of_ne hkey]

theorem contains_fillFields {default : FieldDefault} (h : default ∈ defaults)
    (entries : Entries Node) :
    Entries.contains (fillFields defaults entries).1 default.field = true := by
  induction defaults generalizing entries with
  | nil => simp at h
  | cons first rest ih =>
    rw [fillFields]
    rcases List.mem_cons.1 h with rfl | hrest
    · split
      next hcontains => exact contains_fillFields_of_contains hcontains rest
      next =>
        refine contains_fillFields_of_contains ?_ rest
        simp [Entries.contains_eq_isSome]
    · split
      · exact ih hrest entries
      · exact ih hrest _

theorem get?_fillFields_of_ne {key : String} (h : ∀ default ∈ defaults, default.field ≠ key)
    (entries : Entries Node) :
    Entries.get? (fillFields defaults entries).1 key = Entries.get? entries key := by
  induction defaults generalizing entries with
  | nil => rfl
  | cons first rest ih =>
    obtain ⟨hfirst, hrest⟩ := List.forall_mem_cons.1 h
    rw [fillFields]
    split
    · exact ih hrest entries
    · exact (ih hrest _).trans (Entries.get?_insert_of_ne hfirst.symm entries first.value)

theorem fillFields_eq_self {entries : Entries Node}
    (h : ∀ default ∈ defaults, Entries.contains entries default.field = true) :
    fillFields defaults entries = (entries, 0) := by
  induction defaults with
  | nil => rfl
  | cons first rest ih =>
    obtain ⟨hfirst, hrest⟩ := List.forall_mem_cons.1 h
    rw [fillFields, if_pos hfirst, ih hrest]

theorem fillResponse_mapping (defaults : List FieldDefault) (entries : Entries Node) :
    (fillResponse defaults (.mapping entries)).1 =
      .mapping (if Entries.contains entries Node.refKey then entries
        else (fillFields defaults entries).1) := by
  rw [fillResponse, Change.inMapping_fst, Node.onEntries_mapping]
  split <;> rfl

/-- A response has the fields, or is a reference. -/
def Filled (defaults : List FieldDefault) (response : Node) : Prop :=
  ∀ entries, response = .mapping entries → Entries.contains entries Node.refKey = true ∨
    ∀ default ∈ defaults, Entries.contains entries default.field = true

theorem filled_fillResponse (defaults : List FieldDefault) (response : Node) :
    Filled defaults (fillResponse defaults response).1 := by
  intro entries hentries
  cases response with
  | scalar value => simp [fillResponse] at hentries
  | sequence items => simp [fillResponse] at hentries
  | mapping old =>
    rw [fillResponse_mapping] at hentries
    have hold := Node.mapping.inj hentries
    split at hold
    next href => exact .inl (hold ▸ href)
    next => exact .inr fun default hmem => hold ▸ contains_fillFields hmem old

theorem still_fillResponse {response : Node} (h : Filled defaults response) :
    Change.Still (fillResponse defaults) response := by
  apply Change.still_inMapping
  intro entries hentries
  show (if Entries.contains entries Node.refKey then (entries, 0)
    else fillFields defaults entries) = (entries, 0)
  rcases h entries hentries with href | hfields
  · rw [if_pos href]
  · rw [fillFields_eq_self hfields, ite_self]

theorem honest_fillFields (defaults : List FieldDefault) :
    Change.Honest (fillFields defaults) := by
  intro entries hcount
  induction defaults with
  | nil => rfl
  | cons first rest ih =>
    rw [fillFields] at hcount ⊢
    split at hcount
    next hfirst =>
      rw [if_pos hfirst]
      exact ih hcount
    next => exact absurd hcount (Nat.succ_ne_zero _)

theorem honest_fillResponse (defaults : List FieldDefault) :
    Change.Honest (fillResponse defaults) := by
  apply Change.Honest.inMapping
  intro entries hcount
  simp only at hcount ⊢
  split at hcount
  next href => rw [if_pos href]
  next href =>
    rw [if_neg href]
    exact honest_fillFields defaults entries hcount

/-- All responses of a document have the fields, or are references. -/
def AllFilled (defaults : List FieldDefault) (doc : Document) : Prop :=
  ∀ body ∈ Bodies.all doc, body.1 = .response → Filled defaults body.2

theorem allFilled_backfill (defaults : List FieldDefault) (doc : Document) :
    AllFilled defaults ⟨(backfill defaults doc.root).1⟩ := by
  intro body hmem hkind
  rw [backfill, Bodies.all_onAll] at hmem
  obtain ⟨⟨kind, old⟩, -, rfl⟩ := List.mem_map.1 hmem
  subst hkind
  exact filled_fillResponse defaults old

/-- There is nothing to do in a document whose responses are complete already. -/
theorem still_backfill {doc : Document} (h : AllFilled defaults doc) :
    Change.Still (backfill defaults) doc.root := by
  apply Bodies.still_onAll
  intro body hbody
  obtain ⟨kind, node⟩ := body
  cases kind with
  | request => rfl
  | response => exact still_fillResponse (h _ hbody rfl)

theorem settles_backfill (defaults : List FieldDefault) : Change.Settles (backfill defaults) :=
  fun root => still_backfill (allFilled_backfill defaults ⟨root⟩)

theorem honest_backfill (defaults : List FieldDefault) : Change.Honest (backfill defaults) := by
  apply Bodies.honest_onAll
  intro kind
  cases kind with
  | request => exact Change.honest_keep
  | response => exact honest_fillResponse defaults

/-- Fields other than the content leave it plain. -/
theorem allPlain_backfill {doc : Document} (hdefaults : ∀ default ∈ defaults,
    default.field ≠ "content") (h : MediaTypes.AllPlain doc) :
    MediaTypes.AllPlain ⟨(backfill defaults doc.root).1⟩ := by
  intro body hmem
  rw [backfill, Bodies.all_onAll] at hmem
  obtain ⟨⟨kind, old⟩, hold, rfl⟩ := List.mem_map.1 hmem
  cases kind with
  | request => exact h _ hold
  | response =>
    intro content hcontent
    refine h _ hold content ?_
    rw [← hcontent]
    cases old with
    | scalar value => rfl
    | sequence items => rfl
    | mapping entries =>
      show Entries.get? entries "content" = Node.field? (fillResponse defaults (.mapping entries)).1
        "content"
      rw [fillResponse_mapping]
      split
      · rfl
      · exact (get?_fillFields_of_ne hdefaults entries).symm

end ApiTidy.Responses
