import ApiTidy.Proofs.Walk

/-!
Counted changes one after another. Two changes of the same parts are one change of these parts,
which makes both edits of a part before it goes on to the next.
-/
namespace ApiTidy.Change
variable {α : Type}

theorem keep_andThen (change : Change α) : andThen keep change = change := by
  funext value
  exact Prod.ext rfl (Nat.zero_add _)

theorem onValues_keep : (onValues fun _ => keep : Change (Entries α)) = keep :=
  funext fun _ => still_onValues fun _ _ => rfl

theorem inMapping_keep : inMapping keep = keep :=
  funext fun _ => still_inMapping fun _ _ => rfl

theorem atField_keep (key : String) : atField key keep = keep :=
  funext fun _ => still_atField fun _ _ => rfl

theorem andThen_inMapping (first second : Change (Entries Node)) :
    andThen (inMapping first) (inMapping second) = inMapping (andThen first second) := by
  funext node
  cases node <;> rfl

theorem andThen_inSequence (first second : Change (List Node)) :
    andThen (inSequence first) (inSequence second) = inSequence (andThen first second) := by
  funext node
  cases node <;> rfl

theorem andThen_atKey (key : String) (first second : Change α) :
    andThen (atKey key first) (atKey key second) = atKey key (andThen first second) := by
  funext entries
  cases h : Entries.get? entries key with
  | none => simp [andThen, atKey, h]
  | some value => simp [andThen, atKey, h, Entries.insert_insert]

theorem andThen_atField (key : String) (first second : Change Node) :
    andThen (atField key first) (atField key second) = atField key (andThen first second) := by
  unfold atField
  rw [andThen_inMapping, andThen_atKey]

theorem andThen_keepItems (first second : α → Bool) :
    andThen (keepItems first) (keepItems second) =
      keepItems fun item => first item && second item := by
  funext items
  have hboth : (items.filter first).filter second =
      items.filter fun item => first item && second item := by
    simp only [List.filter_filter, Bool.and_comm]
  have hfirst := List.length_filter_le first items
  have hsecond := List.length_filter_le second (items.filter first)
  rw [hboth] at hsecond
  refine Prod.ext hboth ?_
  simp only [andThen, keepItems, hboth]
  omega

/-- Changes under two keys change the values under these keys, and keep all others. -/
theorem andThen_atField_of_ne {key other : String} (hne : key ≠ other) (first second : Change Node)
    {tree : Node} (h : tree.WellFormed) :
    andThen (atField key first) (atField other second) tree =
      inMapping (onValues fun name =>
        if name = key then first else if name = other then second else keep) tree := by
  cases tree with
  | scalar value => rfl
  | sequence items => rfl
  | mapping entries =>
    obtain ⟨hkeys, -⟩ := Node.wellFormed_mapping.1 h
    let each (key : String) (change : Change Node) :=
      fun name => if name = key then change else keep
    have hlater : Entries.Distinct (onValues (each key first) entries).1 := by
      rw [onValues_fst, Entries.Distinct, Entries.keys_mapValues]
      exact hkeys
    have hboth : andThen (atKey key first) (atKey other second) entries =
        andThen (onValues (each key first)) (onValues (each other second)) entries := by
      simp only [andThen, atKey_eq_onValues hkeys]
      rw [atKey_eq_onValues hlater]
    have heach : (fun name => andThen (each key first name) (each other second name)) =
        fun name => if name = key then first else if name = other then second else keep := by
      funext name
      by_cases hkey : name = key
      · subst hkey
        simp only [each, if_pos rfl, if_neg hne]
        rfl
      · simp only [each, if_neg hkey, keep_andThen]
    unfold atField
    rw [andThen_inMapping]
    simp only [inMapping, hboth, andThen_onValues, heach]

end ApiTidy.Change
