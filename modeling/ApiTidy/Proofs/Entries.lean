import Mathlib.Data.List.Forall2
import ApiTidy.Entries

/-!
Laws of entry lists. None of them asks that the keys are distinct: lookups and edits both take the
first entry of a key.
-/
namespace ApiTidy.Entries
variable {α β : Type}

@[simp] theorem get?_nil (key : String) : get? ([] : Entries α) key = none := rfl

@[simp] theorem get?_cons (entry : String × α) (entries : Entries α) (key : String) :
    get? (entry :: entries) key = if entry.1 = key then some entry.2 else get? entries key := by
  obtain ⟨k, v⟩ := entry
  by_cases h : k = key
  · simp [get?, h]
  · have hne : (key == k) = false := beq_eq_false_iff_ne.2 (Ne.symm h)
    simp [get?, List.lookup_cons, h, hne]

theorem get?_append (first second : Entries α) (key : String) :
    get? (first ++ second) key = (get? first key).or (get? second key) :=
  List.lookup_append

theorem mem_of_get? {entries : Entries α} {key : String} {value : α}
    (h : get? entries key = some value) : (key, value) ∈ entries := by
  induction entries with
  | nil => simp at h
  | cons entry rest ih =>
    rw [get?_cons] at h
    split at h
    next hk =>
      have hv := Option.some.inj h
      subst hk hv
      simp
    next => exact List.mem_cons_of_mem _ (ih h)

/-- With distinct keys every entry is the one that is found under its key. -/
theorem get?_of_mem {entries : Entries α} (hkeys : Distinct entries) {key : String} {value : α}
    (h : (key, value) ∈ entries) : get? entries key = some value := by
  induction entries with
  | nil => simp at h
  | cons entry rest ih =>
    obtain ⟨hfirst, hrest⟩ := List.nodup_cons.1 hkeys
    rw [get?_cons]
    rcases List.mem_cons.1 h with rfl | htail
    · exact if_pos rfl
    · have hne : entry.1 ≠ key := by
        intro heq
        apply hfirst
        show entry.1 ∈ rest.map (·.1)
        rw [heq]
        exact List.mem_map_of_mem htail
      rw [if_neg hne]
      exact ih hrest htail

theorem get?_isSome_iff {entries : Entries α} {key : String} :
    (get? entries key).isSome ↔ key ∈ keys entries := by
  induction entries with
  | nil => simp [keys]
  | cons entry rest ih =>
    rw [get?_cons]
    split
    next hk => simp [keys, hk]
    next hk =>
      have hne : key ≠ entry.1 := fun h => hk h.symm
      rw [ih]
      simp [keys, hne]

theorem contains_eq_isSome (entries : Entries α) (key : String) :
    contains entries key = (get? entries key).isSome := by
  rw [Bool.eq_iff_iff, get?_isSome_iff]
  simp [contains, keys]

theorem contains_concat (entries : Entries α) (key other : String) (value : α) :
    contains (entries ++ [(key, value)]) other = (contains entries other || key == other) := by
  simp [contains]

theorem position?_cons (entry : String × α) (entries : Entries α) (key : String) :
    position? (entry :: entries) key =
      if entry.1 = key then some 0 else (position? entries key).map (· + 1) := by
  simp [position?, List.findIdx?_cons]

theorem position?_isSome (entries : Entries α) (key : String) :
    (position? entries key).isSome = (get? entries key).isSome := by
  induction entries with
  | nil => rfl
  | cons entry rest ih =>
    rw [position?_cons, get?_cons]
    split
    · rfl
    · simpa using ih

@[simp] theorem get?_insert_self (entries : Entries α) (key : String) (value : α) :
    get? (insert entries key value) key = some value := by
  induction entries with
  | nil => simp [insert]
  | cons entry rest ih =>
    by_cases hk : entry.1 = key <;> simp [insert, hk, ih]

theorem get?_insert_of_ne {key other : String} (h : other ≠ key) (entries : Entries α)
    (value : α) : get? (insert entries key value) other = get? entries other := by
  induction entries with
  | nil => simp [insert, Ne.symm h]
  | cons entry rest ih =>
    by_cases hk : entry.1 = key
    · have ho : key ≠ other := Ne.symm h
      simp [insert, hk, ho]
    · simp [insert, hk, ih]

/-- Storing what is there already changes nothing. -/
theorem insert_of_get? {entries : Entries α} {key : String} {value : α}
    (h : get? entries key = some value) : insert entries key value = entries := by
  induction entries with
  | nil => simp at h
  | cons entry rest ih =>
    rw [get?_cons] at h
    obtain ⟨k, v⟩ := entry
    by_cases hk : k = key
    · rw [if_pos hk] at h
      have hv : v = value := Option.some.inj h
      simp [insert, hk, hv]
    · rw [if_neg hk] at h
      simp [insert, hk, ih h]

/-- Only the last of two values stored under a key stays. -/
theorem insert_insert (entries : Entries α) (key : String) (old new : α) :
    insert (insert entries key old) key new = insert entries key new := by
  induction entries with
  | nil => simp [insert]
  | cons entry rest ih => by_cases hk : entry.1 = key <;> simp [insert, hk, ih]

theorem keys_insert_of_mem {entries : Entries α} {key : String} (h : key ∈ keys entries)
    (value : α) : keys (insert entries key value) = keys entries := by
  induction entries with
  | nil => simp [keys] at h
  | cons entry rest ih =>
    by_cases hk : entry.1 = key
    · simp [insert, hk, keys]
    · have hm : key ∈ keys rest := by
        have hne : key ≠ entry.1 := fun e => hk e.symm
        simpa [keys, hne] using h
      have hr := ih hm
      simp only [keys] at hr
      simp [insert, hk, keys, hr]

theorem get?_erase_of_ne {key other : String} (h : other ≠ key) (entries : Entries α) :
    get? (erase entries key) other = get? entries other := by
  induction entries with
  | nil => rfl
  | cons entry rest ih =>
    simp only [erase] at ih
    by_cases hk : entry.1 = key
    · have ho : key ≠ other := Ne.symm h
      simp [erase, hk, ho]
    · simp [erase, hk, ih]

theorem get?_eq_none_iff {entries : Entries α} {key : String} :
    get? entries key = none ↔ key ∉ keys entries := by
  rw [← get?_isSome_iff, Option.not_isSome_iff_eq_none]

theorem Distinct.erase {entries : Entries α} (h : Distinct entries) (key : String) :
    Distinct (erase entries key) :=
  (List.eraseP_sublist.map _).nodup h

theorem get?_erase_self {entries : Entries α} (h : Distinct entries) (key : String) :
    get? (erase entries key) key = none := by
  induction entries with
  | nil => rfl
  | cons entry rest ih =>
    obtain ⟨hfirst, hrest⟩ := List.nodup_cons.1 h
    have hnone := ih hrest
    simp only [Entries.erase] at hnone
    by_cases hk : entry.1 = key
    · have hgone : get? rest key = none := get?_eq_none_iff.2 (hk ▸ hfirst)
      simp [Entries.erase, hk, hgone]
    · simp [Entries.erase, hk, hnone]

theorem Distinct.insertAt {entries : Entries α} (h : Distinct entries) {key : String}
    (hkey : key ∉ keys entries) (index : Nat) (value : α) :
    Distinct (insertAt entries index key value) := by
  have hperm := List.perm_insertIdx (key, value) entries (Nat.min_le_right index entries.length)
  exact (hperm.map _).nodup_iff.2 (List.nodup_cons.2 ⟨hkey, h⟩)

/-- The key of an entry is not among those before and after it. -/
theorem Distinct.notMem_around {before after : Entries α} {key : String} {value : α}
    (h : Distinct (before ++ (key, value) :: after)) : key ∉ keys (before ++ after) := by
  have hperm : (before ++ (key, value) :: after).Perm ((key, value) :: (before ++ after)) :=
    List.perm_middle
  have hkeys : Distinct ((key, value) :: (before ++ after)) := (hperm.map _).nodup h
  exact (List.nodup_cons.1 hkeys).1

theorem keys_append (front back : Entries α) : keys (front ++ back) = keys front ++ keys back :=
  List.map_append

theorem keys_around (front back : Entries α) (key : String) (value : α) :
    keys (front ++ (key, value) :: back) = keys front ++ key :: keys back :=
  List.map_append

theorem notMem_keys_front {front back : Entries α} {key : String}
    (h : key ∉ keys (front ++ back)) : key ∉ keys front :=
  fun hmem => h (keys_append front back ▸ List.mem_append_left _ hmem)

/-- The other entries with the one of a key in front. -/
theorem perm_cons_erase {entries : Entries α} {key : String} {value : α}
    (h : get? entries key = some value) : entries.Perm ((key, value) :: erase entries key) := by
  induction entries with
  | nil => simp at h
  | cons entry rest ih =>
    obtain ⟨k, v⟩ := entry
    rw [get?_cons] at h
    by_cases hk : k = key
    · rw [if_pos hk] at h
      have hv : v = value := Option.some.inj h
      simp [erase, hk, hv]
    · rw [if_neg hk] at h
      have hrest := (ih h).cons (k, v)
      simp only [erase] at hrest
      simp only [erase, List.eraseP_cons, beq_eq_false_iff_ne.2 hk]
      exact hrest.trans (List.Perm.swap _ _ _)

/-- An entry goes back to the place it was taken from. -/
theorem insertAt_erase {entries : Entries α} {key : String} {value : α} {index : Nat}
    (hv : get? entries key = some value) (hi : position? entries key = some index) :
    insertAt (erase entries key) index key value = entries := by
  induction entries generalizing index with
  | nil => simp at hv
  | cons entry rest ih =>
    rw [get?_cons] at hv
    rw [position?_cons] at hi
    by_cases hk : entry.1 = key
    · rw [if_pos hk] at hv hi
      have hval := Option.some.inj hv
      have hidx := Option.some.inj hi
      subst hval hidx hk
      simp [insertAt, erase]
    · rw [if_neg hk] at hv hi
      obtain ⟨place, hp, rfl⟩ := Option.map_eq_some_iff.1 hi
      have hb := ih hv hp
      simp only [insertAt, erase] at hb
      simp [insertAt, erase, hk, Nat.add_min_add_right, hb]

theorem insertAt_append (front back : Entries α) (key : String) (value : α) :
    insertAt (front ++ back) front.length key value = front ++ (key, value) :: back := by
  rw [insertAt, List.length_append, Nat.min_eq_left (Nat.le_add_right _ _)]
  induction front with
  | nil => rfl
  | cons entry rest ih => simp [ih]

theorem insertAt_of_length_le {entries : Entries α} {index : Nat} (h : entries.length ≤ index)
    (key : String) (value : α) : insertAt entries index key value = entries ++ [(key, value)] := by
  rw [insertAt, Nat.min_eq_right h, List.insertIdx_length_self]

theorem get?_insertAt_self {entries : Entries α} {key : String} (h : key ∉ keys entries)
    (index : Nat) (value : α) : get? (insertAt entries index key value) key = some value := by
  unfold insertAt
  generalize hplace : min index entries.length = place
  have hle : place ≤ entries.length := hplace ▸ Nat.min_le_right _ _
  clear hplace
  induction entries generalizing place with
  | nil =>
    obtain rfl := Nat.le_zero.1 hle
    simp
  | cons entry rest ih =>
    obtain ⟨hfirst, hrest⟩ := not_or.1 fun hmem => h (List.mem_cons.2 hmem)
    cases place with
    | zero => simp
    | succ place =>
      have hstep := ih hrest place (Nat.le_of_succ_le_succ hle)
      simp [Ne.symm hfirst, hstep]

theorem get?_insertAt_of_ne {key other : String} (h : other ≠ key) (entries : Entries α)
    (index : Nat) (value : α) :
    get? (insertAt entries index key value) other = get? entries other := by
  unfold insertAt
  generalize min index entries.length = place
  induction entries generalizing place with
  | nil => cases place <;> simp [Ne.symm h]
  | cons entry rest ih =>
    cases place with
    | zero => simp [Ne.symm h]
    | succ place => simp [ih]

/-- The entries before and after the one of a key. -/
theorem exists_split {entries : Entries α} {key : String} {value : α}
    (h : get? entries key = some value) :
    ∃ before after, entries = before ++ (key, value) :: after ∧ key ∉ keys before := by
  induction entries with
  | nil => simp at h
  | cons entry rest ih =>
    obtain ⟨k, v⟩ := entry
    rw [get?_cons] at h
    by_cases hk : k = key
    · rw [if_pos hk] at h
      obtain rfl : v = value := Option.some.inj h
      exact ⟨[], rest, by rw [hk]; rfl, List.not_mem_nil⟩
    · rw [if_neg hk] at h
      obtain ⟨before, after, rfl, hnew⟩ := ih h
      refine ⟨(k, v) :: before, after, rfl, fun hmem => ?_⟩
      exact (List.mem_cons.1 hmem).elim (fun heq => hk heq.symm) hnew

theorem position?_split {before : Entries α} {key : String} (h : key ∉ keys before) (value : α)
    (after : Entries α) : position? (before ++ (key, value) :: after) key = some before.length := by
  induction before with
  | nil => simp [position?_cons]
  | cons entry rest ih =>
    obtain ⟨hfirst, hrest⟩ := not_or.1 fun hmem => h (List.mem_cons.2 hmem)
    simp [position?_cons, Ne.symm hfirst, ih hrest]

theorem erase_append_of_notMem {first : Entries α} {key : String} (h : key ∉ keys first)
    (second : Entries α) : erase (first ++ second) key = first ++ erase second key := by
  refine List.eraseP_append_right second fun entry hmem hkey => h ?_
  rw [← eq_of_beq hkey]
  exact List.mem_map_of_mem hmem

theorem erase_append_of_mem {first : Entries α} {key : String} (h : key ∈ keys first)
    (second : Entries α) : erase (first ++ second) key = erase first key ++ second := by
  obtain ⟨entry, hmem, rfl⟩ := List.mem_map.1 h
  exact List.eraseP_append_left (p := (·.1 == entry.1)) (beq_self_eq_true entry.1) second hmem

theorem erase_of_notMem {entries : Entries α} {key : String} (h : key ∉ keys entries) :
    erase entries key = entries := by
  have happend := erase_append_of_notMem h []
  rw [List.append_nil] at happend
  exact happend.trans (List.append_nil entries)

theorem erase_split {before : Entries α} {key : String} (h : key ∉ keys before) (value : α)
    (after : Entries α) : erase (before ++ (key, value) :: after) key = before ++ after := by
  rw [erase_append_of_notMem h]
  simp [erase]

theorem length_erase_of_mem {entries : Entries α} {key : String} (h : key ∈ keys entries) :
    (erase entries key).length + 1 = entries.length := by
  obtain ⟨entry, hmem, rfl⟩ := List.mem_map.1 h
  rw [erase, List.length_eraseP_of_mem (p := (·.1 == entry.1)) hmem (beq_self_eq_true entry.1)]
  exact Nat.sub_add_cancel (List.length_pos_of_mem hmem)

/-- A new entry does not show among those of another kind. -/
theorem filter_insertAt {p : String → Bool} {key : String} (h : p key = false)
    (entries : Entries α) (index : Nat) (value : α) :
    (insertAt entries index key value).filter (p ·.1) = entries.filter (p ·.1) := by
  unfold insertAt
  generalize min index entries.length = place
  induction entries generalizing place with
  | nil => cases place <;> simp [h]
  | cons entry rest ih =>
    cases place with
    | zero => simp [h]
    | succ place => simp [List.filter_cons, ih place]

theorem get?_around {front back : Entries α} {key other : String} {value : α} (h : key ≠ other) :
    get? (front ++ (key, value) :: back) other = get? (front ++ back) other := by
  rw [← insertAt_append, get?_insertAt_of_ne h.symm]

theorem filter_around {p : String → Bool} {front back : Entries α} {key : String} {value : α}
    (h : p key = false) :
    (front ++ (key, value) :: back).filter (p ·.1) = (front ++ back).filter (p ·.1) := by
  rw [← insertAt_append, filter_insertAt h]

theorem filter_keys_insertAt {p : String → Bool} {key : String} (h : p key = false)
    (entries : Entries α) (index : Nat) (value : α) :
    (keys (insertAt entries index key value)).filter p = (keys entries).filter p := by
  have hfilter := congrArg keys (filter_insertAt h entries index value)
  simpa [keys, List.filter_map, Function.comp_def] using hfilter

/-- Taking out an entry does not show among those of another kind. -/
theorem filter_erase {p : String → Bool} {key : String} (h : p key = false) (entries : Entries α) :
    (erase entries key).filter (p ·.1) = entries.filter (p ·.1) := by
  induction entries with
  | nil => rfl
  | cons entry rest ih =>
    by_cases hk : entry.1 = key
    · simp [erase, hk, h]
    · simp only [erase] at ih
      simp [erase, hk, List.filter_cons, ih]

/-- Taking out the first key of some kind leaves the other keys of the kind. -/
theorem filter_keys_erase {p : String → Bool} {entries : Entries α} {key : String}
    {rest : List String} (h : (keys entries).filter p = key :: rest) :
    (keys (erase entries key)).filter p = rest := by
  have hkey : p key = true := (List.mem_filter.1 (h ▸ List.mem_cons_self)).2
  induction entries with
  | nil => simp [keys] at h
  | cons entry others ih =>
    simp only [keys, List.map_cons] at h
    cases hp : p entry.1 with
    | true =>
      rw [List.filter_cons_of_pos hp] at h
      obtain ⟨hentry, hrest⟩ := List.cons.inj h
      simpa [erase, keys, hentry] using hrest
    | false =>
      have hne : entry.1 ≠ key := fun e => by simp [e, hkey] at hp
      rw [List.filter_cons_of_neg (by simp [hp])] at h
      have hrest := ih h
      simp only [erase, keys] at hrest
      simpa [erase, keys, hne, hp] using hrest

theorem insert_of_notMem {entries : Entries α} {key : String} (h : key ∉ keys entries) (value : α) :
    insert entries key value = entries ++ [(key, value)] := by
  induction entries with
  | nil => rfl
  | cons entry rest ih =>
    obtain ⟨hfirst, hrest⟩ := not_or.1 fun hmem => h (List.mem_cons.2 hmem)
    rw [insert, if_neg (Ne.symm hfirst), ih hrest]
    rfl

theorem keys_insert (entries : Entries α) (key : String) (value : α) :
    keys (insert entries key value) =
      if key ∈ keys entries then keys entries else keys entries ++ [key] := by
  split
  next hmem => exact keys_insert_of_mem hmem value
  next hmem =>
    rw [insert_of_notMem hmem, keys_append]
    rfl

theorem Distinct.insert {entries : Entries α} (h : Distinct entries) (key : String) (value : α) :
    Distinct (insert entries key value) := by
  rw [Distinct, keys_insert]
  split
  · exact h
  next hmem => exact (List.perm_append_singleton key _).nodup_iff.2 (List.nodup_cons.2 ⟨hmem, h⟩)

theorem foldl_insert_of_distinct (before : Entries α) {later : Entries α}
    (h : Distinct (before ++ later)) :
    later.foldl (fun entries (key, value) => insert entries key value) before =
      before ++ later := by
  induction later generalizing before with
  | nil => exact (List.append_nil before).symm
  | cons entry rest ih =>
    obtain ⟨key, value⟩ := entry
    have hnew : key ∉ keys before := by
      rw [Distinct, keys, List.map_append] at h
      obtain ⟨-, -, hapart⟩ := List.nodup_append.1 h
      exact fun hmem => hapart key hmem key List.mem_cons_self rfl
    show List.foldl _ (insert before key value) rest = _
    rw [insert_of_notMem hnew, ih]
    · exact List.append_assoc before [(key, value)] rest
    · rw [List.append_assoc]
      exact h

/-- Pairs with distinct keys are the entries as they are. -/
theorem ofPairs_of_distinct {pairs : Entries α} (h : Distinct pairs) : ofPairs pairs = pairs :=
  foldl_insert_of_distinct [] h

/-- The entries with the value under a key changed, if there is one. -/
def modify (f : α → α) (key : String) : Entries α → Entries α
  | [] => []
  | (k, v) :: rest => if k = key then (k, f v) :: rest else (k, v) :: modify f key rest

theorem insert_eq_modify {entries : Entries α} {key : String} {value : α}
    (h : get? entries key = some value) (f : α → α) :
    insert entries key (f value) = modify f key entries := by
  induction entries with
  | nil => simp at h
  | cons entry rest ih =>
    rw [get?_cons] at h
    by_cases hk : entry.1 = key
    · rw [if_pos hk] at h
      simp [insert, modify, hk, Option.some.inj h]
    · rw [if_neg hk] at h
      simp [insert, modify, hk, ih h]

theorem modify_of_get?_none {entries : Entries α} {key : String} (h : get? entries key = none)
    (f : α → α) : modify f key entries = entries := by
  induction entries with
  | nil => rfl
  | cons entry rest ih =>
    rw [get?_cons] at h
    by_cases hk : entry.1 = key
    · simp [hk] at h
    · rw [if_neg hk] at h
      simp [modify, hk, ih h]

theorem modify_congr {entries : Entries α} {key : String} {f g : α → α}
    (h : ∀ value, get? entries key = some value → f value = g value) :
    modify f key entries = modify g key entries := by
  cases hv : get? entries key with
  | none => rw [modify_of_get?_none hv, modify_of_get?_none hv]
  | some value => rw [← insert_eq_modify hv, ← insert_eq_modify hv, h value hv]

@[simp] theorem keys_modify (f : α → α) (key : String) (entries : Entries α) :
    keys (modify f key entries) = keys entries := by
  induction entries with
  | nil => rfl
  | cons entry rest ih =>
    simp only [keys] at ih
    by_cases hk : entry.1 = key <;> simp [modify, keys, hk, ih]

theorem mem_modify {f : α → α} {key : String} {entries : Entries α} {entry : String × α}
    (h : entry ∈ modify f key entries) :
    entry ∈ entries ∨ ∃ value, (key, value) ∈ entries ∧ entry = (key, f value) := by
  induction entries with
  | nil => exact .inl h
  | cons first rest ih =>
    by_cases hk : first.1 = key
    · rw [modify, if_pos hk, hk] at h
      rcases List.mem_cons.1 h with rfl | hrest
      · exact .inr ⟨first.2, by simp [← hk], rfl⟩
      · exact .inl (List.mem_cons_of_mem _ hrest)
    · rw [modify, if_neg hk] at h
      rcases List.mem_cons.1 h with rfl | hrest
      · exact .inl List.mem_cons_self
      · rcases ih hrest with hold | ⟨value, hmem, heq⟩
        · exact .inl (List.mem_cons_of_mem _ hold)
        · exact .inr ⟨value, List.mem_cons_of_mem _ hmem, heq⟩

@[simp] theorem contains_modify (f : α → α) (key other : String) (entries : Entries α) :
    contains (modify f key entries) other = contains entries other := by
  rw [Bool.eq_iff_iff, contains_eq_isSome, contains_eq_isSome, get?_isSome_iff, get?_isSome_iff,
    keys_modify]

theorem modify_append_of_eq_self {f : α → α} {key : String} {second : Entries α}
    (h : modify f key second = second) (first : Entries α) :
    modify f key (first ++ second) = modify f key first ++ second := by
  induction first with
  | nil => exact h
  | cons entry rest ih => by_cases hk : entry.1 = key <;> simp [modify, hk, ih]

@[simp] theorem get?_modify_self (f : α → α) (key : String) (entries : Entries α) :
    get? (modify f key entries) key = (get? entries key).map f := by
  induction entries with
  | nil => rfl
  | cons entry rest ih => by_cases hk : entry.1 = key <;> simp [modify, hk, ih]

theorem get?_modify_of_ne {key other : String} (h : other ≠ key) (f : α → α)
    (entries : Entries α) : get? (modify f key entries) other = get? entries other := by
  induction entries with
  | nil => rfl
  | cons entry rest ih =>
    by_cases hk : entry.1 = key
    · have ho : key ≠ other := Ne.symm h
      simp [modify, hk, ho]
    · simp [modify, hk, ih]

theorem modify_modify (f g : α → α) (key : String) (entries : Entries α) :
    modify g key (modify f key entries) = modify (g ∘ f) key entries := by
  induction entries with
  | nil => rfl
  | cons entry rest ih => by_cases hk : entry.1 = key <;> simp [modify, hk, ih]

theorem modify_comm {key other : String} (h : key ≠ other) (f g : α → α)
    (entries : Entries α) :
    modify g other (modify f key entries) = modify f key (modify g other entries) := by
  induction entries with
  | nil => rfl
  | cons entry rest ih =>
    by_cases hk : entry.1 = key
    · simp [modify, hk, h]
    · by_cases ho : entry.1 = other
      · simp [modify, ho, Ne.symm h]
      · simp [modify, hk, ho, ih]

/-- A filter that drops a key does not see the change of its value. -/
theorem filter_modify_of_not (p : String → Bool) {key : String} (h : p key = false) (f : α → α)
    (entries : Entries α) : (modify f key entries).filter (p ·.1) = entries.filter (p ·.1) := by
  induction entries with
  | nil => rfl
  | cons entry rest ih =>
    by_cases hk : entry.1 = key
    · simp [modify, hk, h]
    · simp [modify, hk, List.filter_cons, ih]

theorem filter_insert (p : String → Bool) {key : String} (h : p key = false) (value : α)
    (entries : Entries α) : (insert entries key value).filter (p ·.1) = entries.filter (p ·.1) := by
  induction entries with
  | nil => simp [insert, h]
  | cons entry rest ih =>
    by_cases hk : entry.1 = key
    · simp [insert, hk, h]
    · simp [insert, hk, List.filter_cons, ih]

theorem get?_filter (p : String → Bool) (entries : Entries α) (key : String) :
    get? (entries.filter (p ·.1)) key = if p key then get? entries key else none := by
  induction entries with
  | nil => simp
  | cons entry rest ih =>
    by_cases hk : entry.1 = key
    · subst hk
      cases hp : p entry.1 <;> simp [hp, ih]
    · cases hp : p entry.1 <;> simp [hp, hk, ih]

theorem foldl_erase_cons {names : List String} {entry : String × α} (h : entry.1 ∉ names)
    (entries : Entries α) :
    names.foldl erase (entry :: entries) = entry :: names.foldl erase entries := by
  induction names generalizing entries with
  | nil => rfl
  | cons name rest ih =>
    obtain ⟨hname, hrest⟩ := not_or.1 (fun e => h (List.mem_cons.2 e))
    have hstep : erase (entry :: entries) name = entry :: erase entries name := by
      simp [erase, hname]
    rw [List.foldl_cons, List.foldl_cons, hstep, ih hrest]

/-- Taking out the keys of some kind, one by one, is a filter. -/
theorem foldl_erase_keys (p : String → Bool) (entries : Entries α) :
    ((keys entries).filter p).foldl erase entries = entries.filter (!p ·.1) := by
  induction entries with
  | nil => rfl
  | cons entry rest ih =>
    simp only [keys] at ih
    cases hp : p entry.1 with
    | true => simp [keys, hp, erase, ih]
    | false =>
      have hnot : entry.1 ∉ (List.map (·.1) rest).filter p := by simp [hp]
      simp [keys, hp, foldl_erase_cons hnot, ih]

/-- The entries with every value changed, depending on its key. -/
def mapValues (g : String → α → β) (entries : Entries α) : Entries β :=
  entries.map fun entry => (entry.1, g entry.1 entry.2)

@[simp] theorem mapValues_nil (g : String → α → β) : mapValues g [] = [] := rfl

@[simp] theorem mapValues_cons (g : String → α → β) (entry : String × α) (entries : Entries α) :
    mapValues g (entry :: entries) = (entry.1, g entry.1 entry.2) :: mapValues g entries := rfl

@[simp] theorem mapValues_append (g : String → α → β) (first second : Entries α) :
    mapValues g (first ++ second) = mapValues g first ++ mapValues g second :=
  List.map_append

theorem keys_mapValues (g : String → α → β) (entries : Entries α) :
    keys (mapValues g entries) = keys entries := by
  simp [keys, mapValues, Function.comp_def]

@[simp] theorem contains_mapValues (g : String → α → β) (entries : Entries α) (key : String) :
    contains (mapValues g entries) key = contains entries key := by
  simp [contains, mapValues, List.any_map, Function.comp_def]

@[simp] theorem get?_mapValues (g : String → α → β) (entries : Entries α) (key : String) :
    get? (mapValues g entries) key = (get? entries key).map (g key) := by
  induction entries with
  | nil => rfl
  | cons entry rest ih =>
    rw [mapValues_cons, get?_cons, get?_cons]
    split
    next hk => rw [← hk, Option.map_some]
    next => exact ih

theorem mapValues_congr {g h : String → α → β} {entries : Entries α}
    (heq : ∀ entry ∈ entries, g entry.1 entry.2 = h entry.1 entry.2) :
    mapValues g entries = mapValues h entries :=
  List.map_congr_left fun entry hmem => by rw [heq entry hmem]

theorem mapValues_eq_self_iff {g : String → α → α} {entries : Entries α} :
    mapValues g entries = entries ↔ ∀ entry ∈ entries, g entry.1 entry.2 = entry.2 := by
  induction entries with
  | nil => simp
  | cons entry rest ih =>
    rw [mapValues_cons, List.cons_eq_cons, Prod.ext_iff, List.forall_mem_cons, ← ih]
    simp

theorem mapValues_mapValues {γ : Type} (h : String → β → γ) (g : String → α → β)
    (entries : Entries α) :
    mapValues h (mapValues g entries) =
      mapValues (fun key value => h key (g key value)) entries := by
  simp [mapValues]

/-- Whether an entry is kept is up to its key, so its value may be changed before or after. -/
theorem filter_mapValues (p : String → Bool) (g : String → α → β) (entries : Entries α) :
    (mapValues g entries).filter (p ·.1) = mapValues g (entries.filter (p ·.1)) := by
  simp [mapValues, List.filter_map, Function.comp_def]

/-- A change of all values and one of a single value may change places. -/
theorem mapValues_modify {f : α → α} {g : β → β} {h : String → α → β} {key : String}
    {entries : Entries α}
    (hcomm : ∀ value, get? entries key = some value → h key (f value) = g (h key value)) :
    mapValues h (modify f key entries) = modify g key (mapValues h entries) := by
  induction entries with
  | nil => rfl
  | cons entry rest ih =>
    simp only [get?_cons] at hcomm
    by_cases hk : entry.1 = key
    · have hvalue := hcomm entry.2 (if_pos hk)
      simp [modify, hk, hvalue]
    · rw [if_neg hk] at hcomm
      simp [modify, hk, ih hcomm]

theorem mapValues_insert {g : String → α → α} {key : String} {value : α}
    (h : g key value = value) (entries : Entries α) :
    mapValues g (insert entries key value) = insert (mapValues g entries) key value := by
  induction entries with
  | nil => simp [insert, h]
  | cons entry rest ih => by_cases hk : entry.1 = key <;> simp [insert, hk, h, ih]

theorem modify_insert_of_ne {key other : String} (h : key ≠ other) (f : α → α) (value : α)
    (entries : Entries α) :
    modify f key (insert entries other value) = insert (modify f key entries) other value := by
  induction entries with
  | nil => simp [modify, insert, h.symm]
  | cons entry rest ih =>
    by_cases hk : entry.1 = key
    · simp [modify, insert, hk, h]
    · by_cases ho : entry.1 = other
      · simp [modify, insert, ho, h.symm]
      · simp [modify, insert, hk, ho, ih]

/-- A relation of the values in turn, under the same keys, is one of the values under a key. -/
theorem get?_of_forall₂ {relation : String → α → β → Prop} {entries : Entries α}
    {others : Entries β}
    (h : List.Forall₂ (fun old new => new.1 = old.1 ∧ relation old.1 old.2 new.2) entries others)
    {key : String} {value : α} (hvalue : get? entries key = some value) :
    ∃ other, get? others key = some other ∧ relation key value other := by
  induction h with
  | nil => simp at hvalue
  | @cons old new _ _ hfirst _ ih =>
    rw [get?_cons] at hvalue
    rw [get?_cons, hfirst.1]
    split at hvalue
    next hk =>
      obtain rfl := Option.some.inj hvalue
      exact ⟨new.2, if_pos hk, hk ▸ hfirst.2⟩
    next hk =>
      rw [if_neg hk]
      exact ih hvalue

theorem mem_insert {entries : Entries α} {key : String} {value : α} {entry : String × α}
    (h : entry ∈ insert entries key value) : entry = (key, value) ∨ entry ∈ entries := by
  induction entries with
  | nil => exact .inl (List.mem_singleton.1 h)
  | cons first rest ih =>
    by_cases hk : first.1 = key
    · rw [insert, if_pos hk, hk, List.mem_cons] at h
      exact h.imp_right (List.mem_cons_of_mem _)
    · rw [insert, if_neg hk, List.mem_cons] at h
      rcases h with rfl | hrest
      · exact .inr List.mem_cons_self
      · exact (ih hrest).imp_right (List.mem_cons_of_mem _)

end ApiTidy.Entries
