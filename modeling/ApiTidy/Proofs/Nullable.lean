import ApiTidy.Nullable
import ApiTidy.Proofs.Alternatives

/-!
Setting markers, as a function of the entries. Doing it twice is doing it once, the count is zero
exactly if no marker was set, and a change that keeps what is true or false may come before or after.
-/
namespace ApiTidy.Nullable
variable {marker : String}

/-- What the entries of a mapping become, once their values are changed. -/
def complete (marker : String) (entries : Entries Node) : Entries Node :=
  if needsMarker marker entries then
    if Entries.contains entries marker then
      Entries.mapValues (fun key value => if key = marker then .ofBool true else value) entries
    else entries ++ [(marker, .ofBool true)]
  else entries

/-- A tree with its markers set. -/
def marked (marker : String) (node : Node) : Node := (mark marker node).1

theorem markItems_fst (marker : String) (items : List Node) :
    (markItems marker items).1 = items.map (marked marker) := by
  induction items with
  | nil => rfl
  | cons item rest ih => simp [markItems, marked, ih]

theorem markEntries_fst (marker : String) (replace : Bool) (entries : Entries Node) :
    (markEntries marker replace entries).1 = Entries.mapValues (fun key value =>
      if replace && key = marker then .ofBool true else marked marker value) entries := by
  induction entries with
  | nil => rfl
  | cons entry rest ih =>
    obtain ⟨key, value⟩ := entry
    cases replace with
    | false => simp [markEntries, marked, ih]
    | true => by_cases hkey : key = marker <;> simp [markEntries, marked, hkey, ih]

/-- Whether a mapping needs its marker is up to two booleans in it. -/
theorem needsMarker_congr {old new : Entries Node} (h : ∀ key, key = "nullable" ∨ key = marker →
    (Entries.get? new key).bind Node.bool? = (Entries.get? old key).bind Node.bool?) :
    needsMarker marker new = needsMarker marker old := by
  simp only [needsMarker, h "nullable" (.inl rfl), h marker (.inr rfl)]

theorem needsMarker_mapValues {g : String → Node → Node}
    (hg : ∀ key value, (g key value).bool? = value.bool?) (entries : Entries Node) :
    needsMarker marker (Entries.mapValues g entries) = needsMarker marker entries := by
  refine needsMarker_congr fun key _ => ?_
  rw [Entries.get?_mapValues]
  cases Entries.get? entries key with
  | none => rfl
  | some value => exact hg key value

/-- A change of values that keeps the booleans may come before or after. -/
theorem complete_mapValues {g : String → Node → Node}
    (hg : ∀ key value, (g key value).bool? = value.bool?) (entries : Entries Node) :
    complete marker (Entries.mapValues g entries) =
      Entries.mapValues g (complete marker entries) := by
  have htrue : ∀ key, g key (.ofBool true) = .ofBool true :=
    fun key => Node.eq_ofBool ((hg key _).trans rfl)
  unfold complete
  rw [needsMarker_mapValues hg, Entries.contains_mapValues]
  split
  · split
    · rw [Entries.mapValues_mapValues, Entries.mapValues_mapValues]
      refine Entries.mapValues_congr fun entry _ => ?_
      split
      · exact (htrue entry.1).symm
      · rfl
    · simp [htrue]
  · rfl

theorem needsMarker_filter {p : String → Bool} (hnullable : p "nullable" = true)
    (hmarker : p marker = true) (entries : Entries Node) :
    needsMarker marker (entries.filter (p ·.1)) = needsMarker marker entries := by
  refine needsMarker_congr fun key hkey => ?_
  have hp : p key = true := by rcases hkey with rfl | rfl <;> assumption
  rw [Entries.get?_filter, if_pos hp]

/-- Dropping keys that a marker does not depend on may come before or after. -/
theorem complete_filter {p : String → Bool} (hnullable : p "nullable" = true)
    (hmarker : p marker = true) (entries : Entries Node) :
    complete marker (entries.filter (p ·.1)) = (complete marker entries).filter (p ·.1) := by
  unfold complete
  rw [needsMarker_filter hnullable hmarker, Entries.contains_eq_isSome,
    Entries.contains_eq_isSome, Entries.get?_filter, if_pos hmarker]
  split
  · split
    · exact (Entries.filter_mapValues p _ entries).symm
    · simp [hmarker]
  · rfl

theorem get?_complete_of_ne {key : String} (h : key ≠ marker) (entries : Entries Node) :
    Entries.get? (complete marker entries) key = Entries.get? entries key := by
  unfold complete
  split
  · split
    · simp [h]
    · rw [Entries.get?_append, Entries.get?_cons, if_neg h.symm, Entries.get?_nil, Option.or_none]
  · rfl

theorem needsMarker_complete (entries : Entries Node) :
    needsMarker marker (complete marker entries) = false := by
  cases hneeds : needsMarker marker entries with
  | false => simp [complete, hneeds]
  | true =>
    have htrue : Entries.get? (complete marker entries) marker = some (.ofBool true) := by
      rw [complete, if_pos hneeds]
      cases hmarker : Entries.get? entries marker with
      | none => simp [Entries.contains_eq_isSome, hmarker, Entries.get?_append]
      | some value => simp [Entries.contains_eq_isSome, hmarker]
    simp [needsMarker, htrue, Node.bool?, Node.ofBool]

theorem complete_complete (entries : Entries Node) :
    complete marker (complete marker entries) = complete marker entries := by
  rw [complete, needsMarker_complete, if_neg Bool.false_ne_true]

@[simp] theorem marked_scalar (value : Scalar) :
    marked marker (.scalar value) = .scalar value := rfl

@[simp] theorem marked_sequence (items : List Node) :
    marked marker (.sequence items) = .sequence (items.map (marked marker)) :=
  congrArg Node.sequence (markItems_fst marker items)

@[simp] theorem bool?_marked (node : Node) : (marked marker node).bool? = node.bool? := by
  cases node with
  | scalar value => rfl
  | sequence items => simp [Node.bool?]
  | mapping entries =>
    unfold marked mark
    split <;> rfl

@[simp] theorem marked_mapping (entries : Entries Node) :
    marked marker (.mapping entries) =
      .mapping (complete marker (Entries.mapValues (fun _ => marked marker) entries)) := by
  show (mark marker (.mapping entries)).1 = _
  rw [mark, complete, needsMarker_mapValues (fun _ => bool?_marked), Entries.contains_mapValues]
  cases hneeds : needsMarker marker entries with
  | false => simp [markEntries_fst]
  | true =>
    cases hcontains : Entries.contains entries marker with
    | true => simp [markEntries_fst, Entries.mapValues_mapValues]
    | false =>
      have hkeys : ∀ entry ∈ entries, entry.1 ≠ marker := by
        simpa [Entries.contains] using hcontains
      have hvalues : Entries.mapValues (fun key value =>
          if key = marker then .ofBool true else marked marker value) entries =
            Entries.mapValues (fun _ => marked marker) entries :=
        Entries.mapValues_congr fun entry hmem => by simp [hkeys entry hmem]
      simp [markEntries_fst, hvalues]

/-- A mapping stays as it is if its marker is set where it must be and its values stay. -/
theorem marked_mapping_eq_self_iff {entries : Entries Node} :
    marked marker (.mapping entries) = .mapping entries ↔
      needsMarker marker entries = false ∧ ∀ entry ∈ entries, marked marker entry.2 = entry.2 := by
  have hvalues : needsMarker marker (Entries.mapValues (fun _ => marked marker) entries) =
      needsMarker marker entries := needsMarker_mapValues (fun _ => bool?_marked) entries
  rw [marked_mapping, Node.mapping.injEq]
  constructor
  · intro h
    have hneeds : needsMarker marker entries = false := h ▸ needsMarker_complete _
    rw [complete, hvalues, hneeds, if_neg Bool.false_ne_true] at h
    exact ⟨hneeds, Entries.mapValues_eq_self_iff.1 h⟩
  · rintro ⟨hneeds, hsettled⟩
    rw [complete, hvalues, hneeds, if_neg Bool.false_ne_true,
      Entries.mapValues_eq_self_iff.2 hsettled]

theorem marked_marked (node : Node) :
    marked marker (marked marker node) = marked marker node := by
  induction node using Node.induct with
  | scalar value => rfl
  | sequence items ih =>
    rw [marked_sequence, marked_sequence, List.map_map]
    exact congrArg _ (List.map_congr_left ih)
  | mapping entries ih =>
    rw [marked_mapping, marked_mapping, ← complete_mapValues (fun _ => bool?_marked),
      complete_complete, Entries.mapValues_mapValues]
    exact congrArg _ (congrArg _ (Entries.mapValues_congr ih))

theorem markItems_eq_onItems (marker : String) (items : List Node) :
    markItems marker items = Change.onItems (mark marker) items := by
  induction items with
  | nil => rfl
  | cons item rest ih => simp only [markItems, Change.onItems, ih]

theorem markEntries_eq_onValues (marker : String) (entries : Entries Node) :
    markEntries marker false entries = Change.onValues (fun _ => mark marker) entries := by
  induction entries with
  | nil => rfl
  | cons entry rest ih =>
    simp only [markEntries, Change.onValues, Bool.false_and, Bool.false_eq_true, if_false, ih]

theorem exact_mark (marker : String) (node : Node) : Change.Exact (mark marker) node := by
  induction node using Node.induct with
  | scalar value => exact ⟨fun _ => rfl, fun _ => rfl⟩
  | sequence items ih =>
    have hitems := Change.exact_onItems ih
    unfold Change.Exact at hitems ⊢
    simp only [mark, markItems_eq_onItems, Node.sequence.injEq]
    exact hitems
  | mapping entries ih =>
    have hentries : Change.Exact (Change.onValues fun _ => mark marker) entries :=
      Change.exact_onValues ih
    cases hneeds : needsMarker marker entries with
    | true =>
      constructor
      · intro hcount
        simp [mark, hneeds] at hcount
      · intro hsame
        have hsettled := (marked_mapping_eq_self_iff.1 hsame).1
        rw [hneeds] at hsettled
        cases hsettled
    | false =>
      unfold Change.Exact at hentries ⊢
      simp only [mark, hneeds, Bool.false_eq_true, if_false, markEntries_eq_onValues,
        Node.mapping.injEq]
      exact hentries

theorem settles_mark (marker : String) : Change.Settles (mark marker) :=
  Change.settles_of_exact (exact_mark marker) marked_marked

theorem refPointer?_marked (h : marker ≠ Node.refKey) (node : Node) :
    (marked marker node).refPointer? = node.refPointer? := by
  cases node with
  | scalar value => rfl
  | sequence items => simp [Node.refPointer?, Node.field?]
  | mapping entries =>
    rw [marked_mapping]
    refine Node.refPointer?_mapping (f := marked marker) (fun value => ?_) ?_
    · cases value <;> simp [Node.string?]
    · rw [get?_complete_of_ne h.symm, Entries.get?_mapValues]

/-- Changing the value of a key that a marker does not depend on may come before or after. -/
theorem complete_modify {key : String} (hnullable : "nullable" ≠ key) (hmarker : marker ≠ key)
    (f : Node → Node) (entries : Entries Node) :
    complete marker (Entries.modify f key entries) =
      Entries.modify f key (complete marker entries) := by
  have hneeds : needsMarker marker (Entries.modify f key entries) = needsMarker marker entries := by
    refine needsMarker_congr fun other hother => ?_
    have hne : other ≠ key := by rcases hother with rfl | rfl <;> assumption
    rw [Entries.get?_modify_of_ne hne]
  unfold complete
  rw [hneeds, Entries.contains_modify]
  split
  · split
    · exact Entries.mapValues_modify fun value _ => by simp [hmarker.symm]
    · refine (Entries.modify_append_of_eq_self ?_ entries).symm
      simp [Entries.modify, hmarker]
  · rfl

/-- What a change of one value is for the marked tree. -/
theorem marked_modifyField {key : String} (hnullable : "nullable" ≠ key) (hmarker : marker ≠ key)
    {f g : Node → Node} {node : Node} (hcomm : ∀ value, node.field? key = some value →
      marked marker (f value) = g (marked marker value)) :
    marked marker (node.modifyField f key) = (marked marker node).modifyField g key := by
  cases node with
  | scalar value => rfl
  | sequence items => simp
  | mapping entries =>
    rw [Node.modifyField_mapping, marked_mapping, marked_mapping, Node.modifyField_mapping,
      ← complete_modify hnullable hmarker, Entries.mapValues_modify hcomm]

theorem marked_field? {node value : Node} {key : String} (h : marked marker node = node)
    (hvalue : node.field? key = some value) : marked marker value = value := by
  cases node with
  | scalar scalar => simp [Node.field?] at hvalue
  | sequence items => simp [Node.field?] at hvalue
  | mapping entries =>
    exact (marked_mapping_eq_self_iff.1 h).2 _ (Entries.mem_of_get? hvalue)

/-- Entries that are dropped may take the marker with them. It comes back with the next marking and
goes with the next dropping. -/
theorem filter_complete_filter {entries : Entries Node}
    (h : marked marker (.mapping entries) = .mapping entries) (p : String → Bool) :
    (complete marker (Entries.mapValues (fun _ => marked marker) (entries.filter (p ·.1)))).filter
      (p ·.1) = entries.filter (p ·.1) := by
  obtain ⟨hneeds, hvalues⟩ := marked_mapping_eq_self_iff.1 h
  have hkept : Entries.mapValues (fun _ => marked marker) (entries.filter (p ·.1)) =
      entries.filter (p ·.1) :=
    Entries.mapValues_eq_self_iff.2 fun entry hmem => hvalues entry (List.mem_filter.1 hmem).1
  rw [hkept]
  cases hdropped : needsMarker marker (entries.filter (p ·.1)) with
  | false => simp [complete, hdropped]
  | true =>
    have hp : p marker = false := by
      cases hmarker : p marker with
      | false => rfl
      | true =>
        cases hnullable : p "nullable" with
        | false => simp [needsMarker, Entries.get?_filter, hnullable] at hdropped
        | true =>
          rw [needsMarker_filter hnullable hmarker, hneeds] at hdropped
          exact absurd hdropped Bool.false_ne_true
    have hnone : Entries.contains (entries.filter (p ·.1)) marker = false := by
      simp [Entries.contains_eq_isSome, Entries.get?_filter, hp]
    simp [complete, hdropped, hnone, hp]

end ApiTidy.Nullable
