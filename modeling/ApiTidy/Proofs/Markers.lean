import ApiTidy.Proofs.Nullable
import ApiTidy.Proofs.Pipeline
import ApiTidy.Proofs.Places

/-!
Which markers are set, told by the ways through a tree. A nullable mapping gets its marker in the
place of the entry under that key, with everything inside it, or as its last entry. What no such
entry is passed on the way to stays where it is.
-/
namespace ApiTidy.Nullable
open Node
variable {marker key : String} {entries : Entries Node} {node : Node} {way rest : List Step}

/-- Whether a mapping says `nullable: true`. -/
def IsNullable (entries : Entries Node) : Prop :=
  Entries.get? entries "nullable" = some (.ofBool true)

/-- What becomes of a node, apart from what is inside its items and values. -/
inductive MarkedNode (marker : String) : Node → Node → Prop
  | scalar (value : Scalar) : MarkedNode marker (.scalar value) (.scalar value)
  | sequence {items others : List Node} :
      others.length = items.length →
      (∀ (index : Nat) (value : Scalar), others[index]? = some (.scalar value) ↔
        items[index]? = some (.scalar value)) →
      MarkedNode marker (.sequence items) (.sequence others)
  | plain {entries others : Entries Node} :
      ¬ IsNullable entries →
      Entries.keys others = Entries.keys entries →
      (∀ key value, Entries.get? others key = some (.scalar value) ↔
        Entries.get? entries key = some (.scalar value)) →
      MarkedNode marker (.mapping entries) (.mapping others)
  | nullable {entries others : Entries Node} :
      IsNullable entries →
      Entries.get? others marker = some (.ofBool true) →
      Entries.keys others = (if marker ∈ Entries.keys entries then Entries.keys entries
        else Entries.keys entries ++ [marker]) →
      (∀ key value, key ≠ marker → (Entries.get? others key = some (.scalar value) ↔
        Entries.get? entries key = some (.scalar value))) →
      MarkedNode marker (.mapping entries) (.mapping others)

/-- Whether a way passes the marker of a nullable mapping, or ends there. -/
def PassesMarker (marker : String) (tree : Node) (way : List Step) : Prop :=
  ∃ front rest entries, way = front ++ .key marker :: rest ∧
    tree.reach? front = some (.mapping entries) ∧ IsNullable entries

/-- The places of the mappings whose marker is set in the first tree, and is not in the second. -/
def newMarkers (marker : String) (new old : Node) : Set (List Step) :=
  {way | new.reach? (way ++ [.key marker]) = some (.ofBool true) ∧
    old.reach? (way ++ [.key marker]) ≠ some (.ofBool true)}

/-- The first tree is the second with its markers set. -/
structure MarkersSet (marker : String) (new old : Node) : Prop where
  every : ∀ way entries, new.reach? way = some (.mapping entries) → IsNullable entries →
    Entries.get? entries marker = some (.ofBool true)
  /-- Everything is still there that is not inside the value of a marker. -/
  kept : ∀ way, ¬ PassesMarker marker old way →
    Option.Rel (MarkedNode marker) (old.reach? way) (new.reach? way)
  /-- At the marker of a nullable mapping there is nothing but `true`. -/
  passed : ∀ way, PassesMarker marker old way → ∀ found, new.reach? way = some found →
    found = .ofBool true

/-- The edit of one mapping. -/
def setMarker (marker : String) : Change (Entries Node) := fun entries =>
  if needsMarker marker entries then (Entries.insert entries marker (.ofBool true), 1)
  else (entries, 0)

theorem bool?_eq_some_iff {value : Bool} : node.bool? = some value ↔ node = .ofBool value :=
  ⟨Node.eq_ofBool, fun h => h ▸ rfl⟩

theorem bind_bool?_eq_some_iff {value : Bool} {node : Option Node} :
    node.bind Node.bool? = some value ↔ node = some (.ofBool value) := by
  cases node with
  | none => simp
  | some node => simp [bool?_eq_some_iff]

theorem needsMarker_iff : needsMarker marker entries = true ↔
    IsNullable entries ∧ Entries.get? entries marker ≠ some (.ofBool true) := by
  simp [needsMarker, IsNullable, bind_bool?_eq_some_iff]

theorem get?_complete (marker key : String) (entries : Entries Node) :
    Entries.get? (complete marker entries) key =
      if needsMarker marker entries ∧ key = marker then some (.ofBool true)
      else Entries.get? entries key := by
  by_cases hkey : key = marker
  · subst hkey
    cases hneeds : needsMarker key entries with
    | false => simp [complete, hneeds]
    | true =>
      cases hvalue : Entries.get? entries key with
      | none => simp [complete, hneeds, Entries.contains_eq_isSome, hvalue, Entries.get?_append]
      | some value => simp [complete, hneeds, Entries.contains_eq_isSome, hvalue]
  · rw [get?_complete_of_ne hkey, if_neg fun h => hkey h.2]

/-- A nullable mapping has its marker after it is completed. -/
theorem get?_marker_complete (marker : String) (h : IsNullable entries) :
    Entries.get? (complete marker entries) marker = some (.ofBool true) := by
  rw [get?_complete]
  split
  · rfl
  next hneeds =>
    by_contra hvalue
    exact hneeds ⟨needsMarker_iff.2 ⟨h, hvalue⟩, rfl⟩

theorem keys_complete (marker : String) (h : IsNullable entries) :
    Entries.keys (complete marker entries) = if marker ∈ Entries.keys entries then
      Entries.keys entries else Entries.keys entries ++ [marker] := by
  have hcontains : Entries.contains entries marker = true ↔ marker ∈ Entries.keys entries := by
    rw [Entries.contains_eq_isSome, Entries.get?_isSome_iff]
  unfold complete
  by_cases hmem : marker ∈ Entries.keys entries
  · rw [if_pos hmem, if_pos (hcontains.2 hmem)]
    split
    · exact Entries.keys_mapValues _ entries
    · rfl
  · have hneeds : needsMarker marker entries = true :=
      needsMarker_iff.2 ⟨h, by simp [Entries.get?_eq_none_iff.2 hmem]⟩
    rw [if_neg hmem, if_pos hneeds, if_neg (mt hcontains.1 hmem), Entries.keys_append]
    rfl

theorem marked_eq_scalar_iff {value : Scalar} :
    marked marker node = .scalar value ↔ node = .scalar value := by
  cases node <;> simp

/-- A step below a mapping leads to its marker, or to what is left of the value there. -/
theorem reach?_key_marked (marker key : String) (rest : List Step) (entries : Entries Node) :
    (marked marker (.mapping entries)).reach? (.key key :: rest) =
      if needsMarker marker entries ∧ key = marker then (Node.ofBool true).reach? rest
      else (Entries.get? entries key).bind fun value => (marked marker value).reach? rest := by
  rw [marked_mapping, reach?_key_mapping, get?_complete,
    needsMarker_mapValues fun _ => bool?_marked]
  split
  · rfl
  · rw [Entries.get?_mapValues, Option.bind_map]
    rfl

/-- One more step leads to what is left of the node that it led to, if it does not lead to a marker
that is set. -/
theorem reach?_step_marked {step : Step} (h : ∀ entries, node = .mapping entries →
    needsMarker marker entries = true → step ≠ .key marker) :
    (marked marker node).reach? (step :: rest) =
      (node.reach? [step]).bind fun child => (marked marker child).reach? rest := by
  cases node with
  | scalar value =>
    rw [marked_scalar, reach?_scalar, reach?_scalar]
    rfl
  | sequence items =>
    rw [marked_sequence]
    cases step with
    | key key => rfl
    | item index => simp [Option.bind_map]
  | mapping entries =>
    cases step with
    | item index =>
      rw [marked_mapping]
      rfl
    | key key =>
      have hmarker : ¬ (needsMarker marker entries = true ∧ key = marker) := fun hneeds =>
        h entries rfl hneeds.1 (congrArg Step.key hneeds.2)
      rw [reach?_key_marked, if_neg hmarker]
      simp

theorem reach?_ofBool_eq_some {value : Bool} {found : Node}
    (h : (Node.ofBool value).reach? way = some found) : found = .ofBool value := by
  cases way with
  | nil => exact (Option.some.inj h).symm
  | cons step rest => simp [Node.ofBool] at h

/-- What is left is a marker, or was below the step before. -/
theorem reach?_marked_cases {step : Step} {found : Node}
    (h : (marked marker node).reach? (step :: rest) = some found) : found = .ofBool true ∨
      ∃ child, node.reach? [step] = some child ∧
        (marked marker child).reach? rest = some found := by
  by_cases hset : ∃ entries, node = .mapping entries ∧ needsMarker marker entries = true ∧
      step = .key marker
  · obtain ⟨entries, rfl, hneeds, rfl⟩ := hset
    rw [reach?_key_marked, if_pos ⟨hneeds, rfl⟩] at h
    exact .inl (reach?_ofBool_eq_some h)
  · rw [reach?_step_marked fun entries hnode hneeds hstep =>
      hset ⟨entries, hnode, hneeds, hstep⟩] at h
    exact .inr (Option.bind_eq_some_iff.1 h)

theorem markedNode_marked (marker : String) (node : Node) :
    MarkedNode marker node (marked marker node) := by
  cases node with
  | scalar value => exact .scalar value
  | sequence items =>
    rw [marked_sequence]
    refine .sequence (List.length_map _) fun index value => ?_
    simp [marked_eq_scalar_iff]
  | mapping entries =>
    rw [marked_mapping, complete_mapValues fun _ => bool?_marked]
    have hvalue (key : String) (value : Scalar) :
        (Entries.get? entries key).map (marked marker) = some (.scalar value) ↔
          Entries.get? entries key = some (.scalar value) := by
      simp [Option.map_eq_some_iff, marked_eq_scalar_iff]
    by_cases hnullable : IsNullable entries
    · refine .nullable hnullable ?_ ?_ fun key value hkey => ?_
      · rw [Entries.get?_mapValues, get?_marker_complete marker hnullable]
        rfl
      · rw [Entries.keys_mapValues, keys_complete marker hnullable]
      · rw [Entries.get?_mapValues, get?_complete, if_neg fun h => hkey h.2]
        exact hvalue key value
    · have hplain : complete marker entries = entries :=
        if_neg fun h => hnullable (needsMarker_iff.1 h).1
      rw [hplain]
      refine .plain hnullable (Entries.keys_mapValues _ _) fun key value => ?_
      rw [Entries.get?_mapValues]
      exact hvalue key value

theorem PassesMarker.cons {step : Step} {tree child : Node}
    (hstep : tree.reach? [step] = some child) (h : PassesMarker marker child way) :
    PassesMarker marker tree (step :: way) := by
  obtain ⟨front, rest, entries, rfl, hfront, hnullable⟩ := h
  refine ⟨step :: front, rest, entries, rfl, ?_, hnullable⟩
  rw [reach?_cons, hstep]
  exact hfront

theorem kept_marked (h : ¬ PassesMarker marker node way) :
    Option.Rel (MarkedNode marker) (node.reach? way) ((marked marker node).reach? way) := by
  -- A step that does not lead to a marker leads to the same child, marked.
  induction way generalizing node with
  | nil => exact .some (markedNode_marked marker node)
  | cons step rest ih =>
    have hset (entries : Entries Node) (hnode : node = .mapping entries)
        (hneeds : needsMarker marker entries = true) : step ≠ .key marker := by
      rintro rfl
      exact h ⟨[], rest, entries, rfl, congrArg some hnode, (needsMarker_iff.1 hneeds).1⟩
    rw [reach?_step_marked hset, reach?_cons]
    cases hstep : node.reach? [step] with
    | none => exact .none
    | some child => exact ih fun hpasses => h (hpasses.cons hstep)

theorem passed_marked {found : Node} (h : PassesMarker marker node way)
    (hfound : (marked marker node).reach? way = some found) : found = .ofBool true := by
  obtain ⟨front, rest, entries, rfl, hfront, hnullable⟩ := h
  induction front generalizing node with
  | nil =>
    obtain rfl := Option.some.inj hfront
    have htrue := get?_marker_complete marker hnullable
    rw [marked_mapping, complete_mapValues fun _ => bool?_marked, List.nil_append,
      reach?_key_mapping, Entries.get?_mapValues, htrue] at hfound
    exact reach?_ofBool_eq_some hfound
  | cons step front ih =>
    obtain hset | ⟨child, hstep, hbelow⟩ := reach?_marked_cases hfound
    · exact hset
    · rw [reach?_cons, hstep] at hfront
      exact ih hbelow hfront

theorem every_marked (h : (marked marker node).reach? way = some (.mapping entries))
    (hnullable : IsNullable entries) : Entries.get? entries marker = some (.ofBool true) := by
  induction way generalizing node with
  | nil =>
    cases node with
    | scalar value => simp at h
    | sequence items => simp at h
    | mapping others =>
      rw [reach?_nil, marked_mapping] at h
      obtain rfl := Node.mapping.inj (Option.some.inj h)
      by_contra hmarker
      have hneeds := needsMarker_iff.2 ⟨hnullable, hmarker⟩
      rw [needsMarker_complete] at hneeds
      cases hneeds
  | cons step rest ih =>
    obtain hset | ⟨child, -, hbelow⟩ := reach?_marked_cases h
    · cases hset
    · exact ih hbelow

theorem markersSet_marked (marker : String) (node : Node) :
    MarkersSet marker (marked marker node) node where
  every _ _ := every_marked
  kept _ := kept_marked
  passed _ h _ := passed_marked h

/-- Without the marker there is no value that it would replace. -/
theorem markEntries_of_notMem (h : marker ∉ Entries.keys entries) :
    markEntries marker true entries = Change.onValues (fun _ => mark marker) entries := by
  induction entries with
  | nil => rfl
  | cons entry rest ih =>
    obtain ⟨key, value⟩ := entry
    obtain ⟨hfirst, hrest⟩ := not_or.1 fun hmem => h (List.mem_cons.2 hmem)
    have hkey : ¬ key = marker := Ne.symm hfirst
    simp only [markEntries, Change.onValues, Bool.true_and, decide_eq_true_eq, if_neg hkey,
      ih hrest]

/-- A marker that replaces a value, or is added last, is set as a field is. -/
theorem markEntries_eq_onValues_insert (h : Entries.Distinct entries) :
    (if Entries.contains entries marker then (markEntries marker true entries).1
      else (markEntries marker true entries).1 ++ [(marker, .ofBool true)],
      (markEntries marker true entries).2) =
    Change.onValues (fun _ => mark marker) (Entries.insert entries marker (.ofBool true)) := by
  induction entries with
  | nil => rfl
  | cons entry rest ih =>
    obtain ⟨key, value⟩ := entry
    obtain ⟨hfirst, hrest⟩ := List.nodup_cons.1 h
    by_cases hkey : key = marker
    · -- With distinct keys there is no second marker to replace.
      subst hkey
      simp [markEntries, markEntries_of_notMem hfirst, Entries.insert, Entries.contains,
        Change.onValues, Node.ofBool, mark]
    · have hcontains : Entries.contains ((key, value) :: rest) marker =
          Entries.contains rest marker := by simp [Entries.contains, hkey]
      simp only [markEntries, Bool.true_and, decide_eq_true_eq, if_neg hkey, Entries.insert,
        Change.onValues, ← ih hrest, hcontains]
      split <;> rfl

theorem parentsFirst_mark (marker : String) :
    Node.ParentsFirst (setMarker marker) (mark marker) where
  scalar _ := by simp only [mark]
  sequence items := by simp only [mark, markItems_eq_onItems, Change.inSequence]
  mapping {entries} h := by
    have hkeys := (wellFormed_mapping.1 h).1
    cases hneeds : needsMarker marker entries with
    | false =>
      simp [mark, hneeds, setMarker, Change.inMapping, Change.andThen, markEntries_eq_onValues]
    | true =>
      simp only [mark, hneeds, setMarker, Change.inMapping, Change.andThen,
        ← markEntries_eq_onValues_insert hkeys, if_true, Nat.add_comm]
  wellFormed {entries} h := by
    unfold setMarker
    split
    · exact h.insert marker trivial
    · exact h
  depth {entries} h := by
    have hbelow := depthEntries_le_iff.1 (Nat.le_refl (depthEntries entries))
    unfold setMarker
    split
    · refine depthEntries_le_iff.2 fun entry hmem => ?_
      rcases Entries.mem_insert hmem with rfl | hold
      · exact Nat.zero_le _
      · exact hbelow entry hold
    · exact Nat.le_refl _

theorem get?_setMarker (marker key : String) (entries : Entries Node) :
    Entries.get? (setMarker marker entries).1 key =
      if needsMarker marker entries ∧ key = marker then some (.ofBool true)
      else Entries.get? entries key := by
  unfold setMarker
  cases needsMarker marker entries with
  | false => simp
  | true =>
    by_cases hkey : key = marker
    · simp [hkey]
    · simp [Entries.get?_insert_of_ne hkey, hkey]

theorem reach?_concat_scalar (rest : List Step) (step : Step) (value : Scalar) :
    (Node.scalar value).reach? (rest ++ [step]) = none := by
  cases rest <;> simp

theorem newMarkers_scalar (value : Scalar) :
    newMarkers marker (.scalar value) (.scalar value) = ∅ := by
  simp [newMarkers, reach?_concat_scalar]

theorem newMarkers_sequence (items : List Node) :
    newMarkers marker (marked marker (.sequence items)) (.sequence items) =
      throughItems (fun item => newMarkers marker (marked marker item) item) 0 items := by
  ext way
  cases way with
  | nil => simp [newMarkers, throughItems]
  | cons step rest =>
    cases step with
    | key key => simp [newMarkers, throughItems]
    | item index =>
      cases hitem : items[index]? with
      | none => simp [newMarkers, throughItems, hitem]
      | some item => simp [newMarkers, throughItems, hitem]

theorem nil_mem_newMarkers :
    [] ∈ newMarkers marker (marked marker (.mapping entries)) (.mapping entries) ↔
      needsMarker marker entries = true := by
  have hold : (Node.mapping entries).reach? [.key marker] = Entries.get? entries marker := by simp
  rw [newMarkers, Set.mem_ofPred_eq, List.nil_append, reach?_key_marked, hold]
  cases hneeds : needsMarker marker entries with
  | true => simpa using (needsMarker_iff.1 hneeds).2
  | false => simp [Option.bind_eq_some_iff, Node.ofBool, marked_eq_scalar_iff]

theorem key_mem_newMarkers :
    .key key :: rest ∈ newMarkers marker (marked marker (.mapping entries)) (.mapping entries) ↔
      ∃ value, Entries.get? (setMarker marker entries).1 key = some value ∧
        rest ∈ newMarkers marker (marked marker value) value := by
  simp only [newMarkers, Set.mem_ofPred_eq, List.cons_append, reach?_key_marked, reach?_key_mapping,
    get?_setMarker]
  by_cases hset : needsMarker marker entries = true ∧ key = marker
  · -- There is nothing below a marker that is set.
    simp [hset, Node.ofBool, reach?_concat_scalar]
  · simp only [if_neg hset]
    cases Entries.get? entries key <;> simp

/-- A marker is new in a mapping that needs it, or below what is there after it is set. -/
theorem newMarkers_mapping (marker : String) (entries : Entries Node) :
    newMarkers marker (marked marker (.mapping entries)) (.mapping entries) =
      {way | way = [] ∧ needsMarker marker entries = true} ∪
        throughValues (fun _ value => newMarkers marker (marked marker value) value)
          (setMarker marker entries).1 := by
  ext way
  cases way with
  | nil =>
    rw [nil_mem_newMarkers]
    simp [throughValues]
  | cons step rest =>
    cases step with
    | item index => simp [newMarkers, throughValues]
    | key key =>
      rw [key_mem_newMarkers]
      simp [throughValues]

/-- The count is that of the markers that are set now and were not before. -/
theorem encard_newMarkers (h : node.WellFormed) :
    (newMarkers marker (marked marker node) node).encard = (mark marker node).2 := by
  induction node using Node.induct with
  | scalar value =>
    rw [marked_scalar, newMarkers_scalar]
    exact Set.encard_empty
  | sequence items ih =>
    have hitems := wellFormed_sequence.1 h
    rw [newMarkers_sequence, encard_throughItems (mark marker) fun item hmem =>
      ih item hmem (hitems item hmem)]
    simp only [mark, markItems_eq_onItems]
  | mapping entries ih =>
    have hkeys := (wellFormed_mapping.1 ((parentsFirst_mark marker).wellFormed h)).1
    have hbelow : ∀ entry ∈ (setMarker marker entries).1,
        (newMarkers marker (marked marker entry.2) entry.2).encard = (mark marker entry.2).2 := by
      intro entry hmem
      have hvalues := (wellFormed_mapping.1 h).2
      unfold setMarker at hmem
      split at hmem
      · rcases Entries.mem_insert hmem with rfl | hold
        · rw [Node.ofBool, marked_scalar, newMarkers_scalar]
          exact Set.encard_empty
        · exact ih entry hold (hvalues entry hold)
      · exact ih entry hmem (hvalues entry hmem)
    have hown : ({way | way = [] ∧ needsMarker marker entries = true} : Set (List Step)).encard =
        (setMarker marker entries).2 := by
      unfold setMarker
      cases needsMarker marker entries <;> simp
    have happart : Disjoint {way | way = [] ∧ needsMarker marker entries = true}
        (throughValues (fun _ value => newMarkers marker (marked marker value) value)
          (setMarker marker entries).1) := by
      rw [Set.disjoint_left]
      rintro _ ⟨rfl, -⟩ ⟨key, value, rest, -, -, hway⟩
      cases hway
    rw [newMarkers_mapping, Set.encard_union_eq happart, hown,
      encard_throughValues (fun _ => mark marker) hkeys hbelow,
      (parentsFirst_mark marker).mapping h]
    rfl

/-- Marking sets the marker of every nullable mapping and changes nothing else, apart from what a
marker replaces. The count is that of the markers that are set now and were not before, as in the
walk that sets them. -/
theorem propagateOmitEmpty_exact (marker : String) (doc : Document) (h : doc.root.WellFormed) :
    ∃ count changed, (Pass.propagateOmitEmpty marker).apply doc = .ok count changed ∧
      MarkersSet marker changed.root doc.root ∧
      (newMarkers marker changed.root doc.root).encard = count ∧
      doc.root.walkMappings (Node.counted (setMarker marker)) 0 = (changed.root, count) :=
  ⟨_, _, rfl, markersSet_marked marker doc.root, encard_newMarkers h,
    (parentsFirst_mark marker).walkMappings h⟩

/-- A nullable schema whose marker is in the place of another nullable one, and two items. -/
def nestedNullable : Document :=
  let schema := Node.mapping [("nullable", .ofBool true)]
  ⟨.mapping [("schema", .mapping [("x", schema), ("nullable", .ofBool true),
    ("items", .sequence [schema, .mapping [("nullable", .ofBool false)]])])]⟩

theorem propagateOmitEmpty_exact_of_nested : nestedNullable.root.WellFormed ∧ ∃ changed,
    (Pass.propagateOmitEmpty "x").apply nestedNullable = .ok 2 changed ∧
    MarkersSet "x" changed.root nestedNullable.root ∧
    (newMarkers "x" changed.root nestedNullable.root).encard = (2 : Nat) ∧
    nestedNullable.root.walkMappings (Node.counted (setMarker "x")) 0 = (changed.root, 2) := by
  have hroot : nestedNullable.root.WellFormed := by decide
  have hcount : (mark "x" nestedNullable.root).2 = 2 := by decide
  obtain ⟨count, changed, happly, hset, hways, hwalk⟩ :=
    propagateOmitEmpty_exact "x" nestedNullable hroot
  obtain rfl : 2 = count := hcount.symm.trans (EStateM.Result.ok.inj happly).1
  exact ⟨hroot, changed, happly, hset, hways, hwalk⟩

end ApiTidy.Nullable
