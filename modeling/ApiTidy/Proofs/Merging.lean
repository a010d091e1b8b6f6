import ApiTidy.Node.Merge
import ApiTidy.Proofs.Address.Way

/-!
Merging keeps what is there and adds what is missing. Two mappings without a string `$ref` are
merged key by key, and all else is left to the tree that is merged into. Merging cannot make such a
mapping a reference: of two of them neither brings a string `$ref`, and a merged value is a string
only if it was one.
-/
namespace ApiTidy.Node
variable {target source node : Node} {entries added : Entries Node} {step : Step} {way : List Step}

/-- A mapping that is no reference, so that another one may be merged into it. -/
def IsOpen (node : Node) : Prop := node.isMapping = true ∧ node.refPointer? = none

instance (node : Node) : Decidable node.IsOpen :=
  inferInstanceAs (Decidable (node.isMapping = true ∧ node.refPointer? = none))

theorem exists_entries_of_isOpen (h : node.IsOpen) : ∃ entries, node = .mapping entries := by
  cases node with
  | scalar value => simp [IsOpen, isMapping] at h
  | sequence items => simp [IsOpen, isMapping] at h
  | mapping entries => exact ⟨entries, rfl⟩

theorem merge_of_open (htarget : (mapping entries).IsOpen) (hsource : (mapping added).IsOpen) :
    merge (.mapping entries) (.mapping added) = .mapping (mergeEntries entries added) := by
  simp [merge, htarget.2, hsource.2]

theorem merge_of_target_not_open (h : ¬ target.IsOpen) : target.merge source = target := by
  cases source with
  | scalar value => rfl
  | sequence items => rfl
  | mapping added =>
    cases target with
    | scalar value => simp [merge]
    | sequence items => simp [merge]
    | mapping entries =>
      have href : (mapping entries).refPointer?.isSome := by
        simpa [IsOpen, isMapping, ← Option.isSome_iff_ne_none] using h
      simp [merge, href]

theorem merge_of_source_not_open (h : ¬ source.IsOpen) : target.merge source = target := by
  cases source with
  | scalar value => rfl
  | sequence items => rfl
  | mapping added =>
    have href : (mapping added).refPointer?.isSome := by
      simpa [IsOpen, isMapping, ← Option.isSome_iff_ne_none] using h
    simp [merge, href]

theorem string?_merge (target source : Node) : (target.merge source).string? = target.string? := by
  by_cases htarget : target.IsOpen
  · by_cases hsource : source.IsOpen
    · obtain ⟨entries, rfl⟩ := exists_entries_of_isOpen htarget
      obtain ⟨added, rfl⟩ := exists_entries_of_isOpen hsource
      rw [merge_of_open htarget hsource]
      rfl
    · rw [merge_of_source_not_open hsource]
  · rw [merge_of_target_not_open htarget]

/-- A key of both has the merged value, and a key of one has that one's. -/
theorem get?_mergeEntries (h : Entries.Distinct added) (entries : Entries Node) (key : String) :
    Entries.get? (mergeEntries entries added) key =
      Option.merge merge (Entries.get? entries key) (Entries.get? added key) := by
  induction added generalizing entries with
  | nil =>
    rw [mergeEntries, Entries.get?_nil]
    cases Entries.get? entries key <;> rfl
  | cons entry rest ih =>
    obtain ⟨name, value⟩ := entry
    obtain ⟨hnew, hrest⟩ := List.nodup_cons.1 h
    rw [mergeEntries, ih hrest, Entries.get?_cons]
    by_cases hkey : name = key
    · subst hkey
      have hnone : Entries.get? rest name = none := Entries.get?_eq_none_iff.2 hnew
      rw [Entries.get?_insert_self, hnone, if_pos rfl]
      cases Entries.get? entries name <;> rfl
    · rw [Entries.get?_insert_of_ne (Ne.symm hkey), if_neg hkey]

/-- The keys that were there come first, and then the new ones in their order. -/
theorem keys_mergeEntries (h : Entries.Distinct added) (entries : Entries Node) :
    Entries.keys (mergeEntries entries added) =
      Entries.keys entries ++ (Entries.keys added).filter (· ∉ Entries.keys entries) := by
  induction added generalizing entries with
  | nil => simp [mergeEntries, Entries.keys]
  | cons entry rest ih =>
    obtain ⟨name, value⟩ := entry
    obtain ⟨hnew, hrest⟩ := List.nodup_cons.1 h
    have hkeys : Entries.keys ((name, value) :: rest) = name :: Entries.keys rest := rfl
    rw [mergeEntries, ih hrest, hkeys]
    by_cases hmem : name ∈ Entries.keys entries
    · rw [Entries.keys_insert_of_mem hmem, List.filter_cons_of_neg (by simpa using hmem)]
    · have hothers : (Entries.keys rest).filter (· ∉ Entries.keys entries ++ [name]) =
          (Entries.keys rest).filter (· ∉ Entries.keys entries) := by
        refine List.filter_congr fun key hkey => ?_
        have hne : key ≠ name := fun heq => hnew (heq ▸ hkey)
        simp [hne]
      rw [Entries.insert_of_notMem hmem, Entries.keys_append, List.filter_cons_of_pos (by simpa)]
      show (Entries.keys entries ++ [name]) ++ (Entries.keys rest).filter
        (· ∉ Entries.keys entries ++ [name]) = _
      rw [hothers, List.append_assoc]
      rfl

/-- Entries whose values bring nothing new change nothing. -/
theorem mergeEntries_eq_self
    (h : ∀ entry ∈ added, ∃ old, Entries.get? entries entry.1 = some old ∧ old.merge entry.2 = old) :
    mergeEntries entries added = entries := by
  induction added with
  | nil => rfl
  | cons entry rest ih =>
    obtain ⟨name, value⟩ := entry
    obtain ⟨⟨old, hold, hsame⟩, hrest⟩ := List.forall_mem_cons.1 h
    simp only [mergeEntries, hold, hsame, Entries.insert_of_get? hold]
    exact ih hrest

/-- Merging does not change what a node refers to. -/
theorem refPointer?_merge (hsource : source.WellFormed) :
    (target.merge source).refPointer? = target.refPointer? := by
  by_cases htarget : target.IsOpen
  · by_cases hopen : source.IsOpen
    · obtain ⟨entries, rfl⟩ := exists_entries_of_isOpen htarget
      obtain ⟨added, rfl⟩ := exists_entries_of_isOpen hopen
      have hold : (Entries.get? entries refKey).bind string? = none := htarget.2
      have hnew : (Entries.get? added refKey).bind string? = none := hopen.2
      rw [merge_of_open htarget hopen, htarget.2]
      show (Entries.get? (mergeEntries entries added) refKey).bind string? = none
      rw [get?_mergeEntries (wellFormed_mapping.1 hsource).1]
      cases hfound : Entries.get? entries refKey with
      | none => simpa using hnew
      | some old =>
        rw [hfound] at hold
        cases Entries.get? added refKey with
        | none => exact hold
        | some value => exact (string?_merge old value).trans hold
    · rw [merge_of_source_not_open hopen]
  · rw [merge_of_target_not_open htarget]

theorem isOpen_merge (hsource : source.WellFormed) (h : target.IsOpen) :
    (target.merge source).IsOpen := by
  refine ⟨?_, (refPointer?_merge hsource).trans h.2⟩
  by_cases hopen : source.IsOpen
  · obtain ⟨entries, rfl⟩ := exists_entries_of_isOpen h
    obtain ⟨added, rfl⟩ := exists_entries_of_isOpen hopen
    rw [merge_of_open h hopen]
    rfl
  · rw [merge_of_source_not_open hopen]
    exact h.1

/-- A tree brings nothing new to itself. -/
theorem merge_self (h : node.WellFormed) : node.merge node = node := by
  induction node using Node.induct with
  | scalar value => rfl
  | sequence items => rfl
  | mapping entries ih =>
    by_cases hopen : (mapping entries).IsOpen
    · obtain ⟨hkeys, hvalues⟩ := wellFormed_mapping.1 h
      rw [merge_of_open hopen hopen, mergeEntries_eq_self]
      intro entry hmem
      exact ⟨entry.2, Entries.get?_of_mem hkeys hmem, ih entry hmem (hvalues entry hmem)⟩
    · exact merge_of_target_not_open hopen

/-- What was merged brings nothing new a second time. -/
theorem merge_merge (hsource : source.WellFormed) (target : Node) :
    (target.merge source).merge source = target.merge source := by
  induction source using Node.induct generalizing target with
  | scalar value => rfl
  | sequence items => rfl
  | mapping added ih =>
    by_cases htarget : target.IsOpen
    · by_cases hopen : (mapping added).IsOpen
      · obtain ⟨hkeys, hvalues⟩ := wellFormed_mapping.1 hsource
        have hmerged := isOpen_merge hsource htarget
        obtain ⟨entries, rfl⟩ := exists_entries_of_isOpen htarget
        rw [merge_of_open htarget hopen] at hmerged ⊢
        rw [merge_of_open hmerged hopen, mergeEntries_eq_self]
        intro entry hmem
        rw [get?_mergeEntries hkeys, Entries.get?_of_mem hkeys hmem]
        cases Entries.get? entries entry.1 with
        | none => exact ⟨entry.2, rfl, merge_self (hvalues entry hmem)⟩
        | some old => exact ⟨_, rfl, ih entry hmem (hvalues entry hmem) old⟩
      · rw [merge_of_source_not_open hopen, merge_of_source_not_open hopen]
    · rw [merge_of_target_not_open htarget, merge_of_target_not_open htarget]

/-- One step down two open mappings leads to the merged child. -/
theorem reach?_merge_step (hsource : source.WellFormed) (htarget : target.IsOpen)
    (hopen : source.IsOpen) (step : Step) :
    (target.merge source).reach? [step] =
      Option.merge merge (target.reach? [step]) (source.reach? [step]) := by
  obtain ⟨entries, rfl⟩ := exists_entries_of_isOpen htarget
  obtain ⟨added, rfl⟩ := exists_entries_of_isOpen hopen
  rw [merge_of_open htarget hopen]
  cases step with
  | key name => simp [get?_mergeEntries (wellFormed_mapping.1 hsource).1]
  | item index => simp

/-- Whether all nodes that a tree has on a way, above its end, are open mappings in another one as
well as in the tree itself. -/
def OpenAbove (way : List Step) (target source : Node) : Prop :=
  ∀ front back, way = front ++ back → back ≠ [] → ∀ found, target.reach? front = some found →
    found.IsOpen ∧ ∃ other, source.reach? front = some other ∧ other.IsOpen

theorem OpenAbove.both_open (h : OpenAbove (step :: way) target source) :
    target.IsOpen ∧ source.IsOpen := by
  obtain ⟨htarget, other, hother, hopen⟩ :=
    h [] (step :: way) rfl (List.cons_ne_nil step way) target (reach?_nil target)
  obtain rfl : source = other := Option.some.inj ((reach?_nil source).symm.trans hother)
  exact ⟨htarget, hopen⟩

/-- Where the tree has nothing below, only its top is on the way. -/
theorem openAbove_of_none (htarget : target.IsOpen) (hsource : source.IsOpen)
    (h : target.reach? [step] = none) : OpenAbove (step :: way) target source := by
  intro front back heq _ found hfound
  cases front with
  | nil =>
    obtain rfl : target = found := Option.some.inj ((reach?_nil target).symm.trans hfound)
    exact ⟨htarget, source, reach?_nil source, hsource⟩
  | cons first front =>
    obtain ⟨rfl, -⟩ := List.cons.inj heq
    rw [reach?_cons, h] at hfound
    cases hfound

theorem openAbove_of_some {child other : Node} (htarget : target.IsOpen) (hsource : source.IsOpen)
    (hchild : target.reach? [step] = some child) (hother : source.reach? [step] = some other) :
    OpenAbove (step :: way) target source ↔ OpenAbove way child other := by
  constructor
  · intro h front back heq hback found hfound
    have hlater := h (step :: front) back (congrArg (step :: ·) heq) hback found
    rw [reach?_cons, hchild, reach?_cons, hother] at hlater
    exact hlater hfound
  · intro h front back heq hback found hfound
    cases front with
    | nil =>
      obtain rfl : target = found := Option.some.inj ((reach?_nil target).symm.trans hfound)
      exact ⟨htarget, source, reach?_nil source, hsource⟩
    | cons first front =>
      obtain ⟨rfl, hway⟩ := List.cons.inj heq
      rw [reach?_cons, hchild] at hfound
      rw [reach?_cons, hother]
      exact h front back hway hback found hfound

/-- What a tree has is kept, or has something merged into it. -/
theorem reach?_merge_of_some (hsource : source.WellFormed) (h : target.reach? way = some node) :
    ∃ now, (target.merge source).reach? way = some now ∧
      (now = node ∨ ∃ other, other.WellFormed ∧ now = node.merge other) := by
  induction way generalizing target source with
  | nil =>
    obtain rfl : target = node := Option.some.inj ((reach?_nil target).symm.trans h)
    exact ⟨_, reach?_nil _, .inr ⟨source, hsource, rfl⟩⟩
  | cons step rest ih =>
    by_cases htarget : target.IsOpen
    · by_cases hopen : source.IsOpen
      · rw [reach?_cons] at h ⊢
        obtain ⟨child, hchild, hrest⟩ := Option.bind_eq_some_iff.1 h
        rw [reach?_merge_step hsource htarget hopen, hchild]
        cases hother : source.reach? [step] with
        | none => exact ⟨node, hrest, .inl rfl⟩
        | some other => exact ih (hsource.reach? hother) hrest
      · exact ⟨node, by rwa [merge_of_source_not_open hopen], .inl rfl⟩
    · exact ⟨node, by rwa [merge_of_target_not_open htarget], .inl rfl⟩

/-- What a tree lacks is added exactly below open mappings of both. -/
theorem reach?_merge_of_none (hsource : source.WellFormed) (h : target.reach? way = none) :
    (target.merge source).reach? way = some node ↔
      source.reach? way = some node ∧ OpenAbove way target source := by
  induction way generalizing target source with
  | nil => simp at h
  | cons step rest ih =>
    by_cases hboth : target.IsOpen ∧ source.IsOpen
    · obtain ⟨htarget, hopen⟩ := hboth
      rw [reach?_cons] at h
      rw [reach?_cons, reach?_merge_step hsource htarget hopen, reach?_cons step rest source]
      cases hchild : target.reach? [step] with
      | none =>
        rw [and_iff_left (openAbove_of_none htarget hopen hchild)]
        cases source.reach? [step] <;> rfl
      | some child =>
        rw [hchild] at h
        cases hother : source.reach? [step] with
        | none =>
          have hnone : child.reach? rest = none := h
          simp [hnone]
        | some other =>
          rw [openAbove_of_some htarget hopen hchild hother]
          exact ih (hsource.reach? hother) h
    · have hsame : target.merge source = target := by
        rcases not_and_or.1 hboth with htarget | hopen
        · exact merge_of_target_not_open htarget
        · exact merge_of_source_not_open hopen
      rw [hsame, h]
      constructor
      · intro hfound
        cases hfound
      · rintro ⟨-, habove⟩
        exact absurd habove.both_open hboth

/-- Below open mappings of both, what both have is merged. -/
theorem reach?_merge_of_both {other : Node} (hsource : source.WellFormed)
    (habove : OpenAbove way target source) (hnode : target.reach? way = some node)
    (hother : source.reach? way = some other) :
    (target.merge source).reach? way = some (node.merge other) := by
  induction way generalizing target source with
  | nil =>
    obtain rfl : target = node := Option.some.inj ((reach?_nil target).symm.trans hnode)
    obtain rfl : source = other := Option.some.inj ((reach?_nil source).symm.trans hother)
    exact reach?_nil _
  | cons step rest ih =>
    obtain ⟨htarget, hopen⟩ := habove.both_open
    rw [reach?_cons] at hnode hother
    obtain ⟨child, hchild, hbelow⟩ := Option.bind_eq_some_iff.1 hnode
    obtain ⟨second, hsecond, hlater⟩ := Option.bind_eq_some_iff.1 hother
    rw [openAbove_of_some htarget hopen hchild hsecond] at habove
    rw [reach?_cons, reach?_merge_step hsource htarget hopen, hchild, hsecond]
    exact ih (hsource.reach? hsecond) habove hbelow hlater

/-- A tree keeps what it has and gets what it lacks of another one. -/
structure Merged (target source merged : Node) : Prop where
  kept {way : List Step} {node : Node} (h : target.reach? way = some node) :
    ∃ now, merged.reach? way = some now ∧ now.refPointer? = node.refPointer? ∧
      (¬ node.IsOpen → now = node)
  added {way : List Step} (h : target.reach? way = none) (node : Node) :
    merged.reach? way = some node ↔ source.reach? way = some node ∧ OpenAbove way target source
  keys {way : List Step} {old new : Entries Node} (h : OpenAbove way target source)
    (hold : target.reach? way = some (.mapping old)) (hopen : (mapping old).IsOpen)
    (hnew : source.reach? way = some (.mapping new)) (hother : (mapping new).IsOpen) :
    ∃ now, merged.reach? way = some (.mapping now) ∧
      Entries.keys now = Entries.keys old ++ (Entries.keys new).filter (· ∉ Entries.keys old)

theorem merged_merge (hsource : source.WellFormed) :
    Merged target source (target.merge source) where
  kept {way node} h := by
    obtain ⟨now, hnow, rfl | ⟨other, hother, rfl⟩⟩ := reach?_merge_of_some hsource h
    · exact ⟨now, hnow, rfl, fun _ => rfl⟩
    · exact ⟨_, hnow, refPointer?_merge hother, merge_of_target_not_open⟩
  added h _ := reach?_merge_of_none hsource h
  keys {way old new} h hold hopen hnew hother := by
    have hdistinct := (wellFormed_mapping.1 (hsource.reach? hnew)).1
    have hnow := reach?_merge_of_both hsource h hold hnew
    rw [merge_of_open hopen hother] at hnow
    exact ⟨_, hnow, keys_mergeEntries hdistinct old⟩

/-- Merging keeps what is there and adds what is missing, and so it has nothing to do a second
time. -/
theorem merge_adds_missing (h : source.WellFormed) :
    Merged target source (target.merge source) ∧
      (target.merge source).merge source = target.merge source :=
  ⟨merged_merge h, merge_merge h target⟩

/-- A mapping whose `$ref` is no string, with a reference and a list below it. -/
def inlineMedia : Node :=
  .mapping [("schema", (Reference.mk .schemas "Pet").toNode), ("$ref", .mapping [("kind", null)]),
    ("tags", .sequence [null]), ("extra", .mapping [("$ref", ofBool true)])]

/-- One with a `$ref` that is no string either, which meets the reference and the list. -/
def furtherMedia : Node :=
  .mapping [("tags", .sequence [null, null]), ("extra", .mapping [("items", .sequence [])]),
    ("$ref", .mapping [("kind", ofBool true), ("name", ofString "inner")]),
    ("schema", .mapping [("type", ofString "object")]),
    ("example", (Reference.mk .examples "Cat").toNode)]

theorem merge_adds_missing_media :
    furtherMedia.WellFormed ∧
      Merged inlineMedia furtherMedia
        (.mapping [("schema", (Reference.mk .schemas "Pet").toNode),
          ("$ref", .mapping [("kind", null), ("name", ofString "inner")]),
          ("tags", .sequence [null]),
          ("extra", .mapping [("$ref", ofBool true), ("items", .sequence [])]),
          ("example", (Reference.mk .examples "Cat").toNode)]) := by
  have hsource : furtherMedia.WellFormed := by decide
  have hmerged : Merged inlineMedia furtherMedia (inlineMedia.merge furtherMedia) :=
    (merge_adds_missing hsource).1
  exact ⟨hsource, hmerged⟩

end ApiTidy.Node
