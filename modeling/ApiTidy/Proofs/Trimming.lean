import ApiTidy.Proofs.Commuting
import ApiTidy.Proofs.Responses

/-!
What the passes over whole trees do to bodies, as one relation: entries of example keys go, markers
come, and everything else keeps its key. Media types then stay plain and responses stay complete.
-/
namespace ApiTidy
open Alternatives Nullable Examples

/-- The entries of a mapping after a trimming that relates their values by `R`. -/
inductive TrimmedEntries (marker : String) (R : Node → Node → Prop) :
    Entries Node → Entries Node → Prop
  | nil : TrimmedEntries marker R [] []
  | mark : TrimmedEntries marker R [] [(marker, .ofBool true)]
  | keep {key : String} {value trimmed : Node} {rest later : Entries Node} :
      R value trimmed → TrimmedEntries marker R rest later →
      TrimmedEntries marker R ((key, value) :: rest) ((key, trimmed) :: later)
  | drop {key : String} {value : Node} {rest later : Entries Node} :
      isExampleKey key = true → TrimmedEntries marker R rest later →
      TrimmedEntries marker R ((key, value) :: rest) later

/-- A tree after a trimming, as far as the keys of its mappings go. -/
inductive Trimmed (marker : String) : Node → Node → Prop
  | leaf {old new : Node} : new.entries? = none → Trimmed marker old new
  | mapping {old new : Entries Node} : TrimmedEntries marker (Trimmed marker) old new →
      Trimmed marker (.mapping old) (.mapping new)

variable {marker : String} {R : Node → Node → Prop} {old new : Entries Node}

theorem TrimmedEntries.get? (h : TrimmedEntries marker R old new) {key : String} {value : Node}
    (hkey : isExampleKey key = false) (hvalue : Entries.get? new key = some value) :
    value.entries? = none ∨ ∃ before, Entries.get? old key = some before ∧ R before value := by
  induction h with
  | nil => simp at hvalue
  | mark =>
    rw [Entries.get?_cons] at hvalue
    split at hvalue
    next => exact .inl (Option.some.inj hvalue ▸ rfl)
    next => simp at hvalue
  | keep hR _ ih =>
    rw [Entries.get?_cons] at hvalue ⊢
    split at hvalue
    next hfirst =>
      obtain rfl := Option.some.inj hvalue
      exact .inr ⟨_, if_pos hfirst, hR⟩
    next hfirst =>
      rw [if_neg hfirst]
      exact ih hvalue
  | @drop first _ _ _ hexample _ ih =>
    have hne : first ≠ key := fun e => by simp [e, hkey] at hexample
    rw [Entries.get?_cons, if_neg hne]
    exact ih hvalue

theorem TrimmedEntries.mem (h : TrimmedEntries marker R old new) {entry : String × Node}
    (hentry : entry ∈ new) :
    entry.2.entries? = none ∨ ∃ before, (entry.1, before) ∈ old ∧ R before entry.2 := by
  induction h with
  | nil => simp at hentry
  | mark => exact .inl (List.mem_singleton.1 hentry ▸ rfl)
  | keep hR _ ih =>
    rcases List.mem_cons.1 hentry with rfl | hrest
    · exact .inr ⟨_, List.mem_cons_self, hR⟩
    · rcases ih hrest with hleaf | ⟨before, hmem, hbefore⟩
      · exact .inl hleaf
      · exact .inr ⟨before, List.mem_cons_of_mem _ hmem, hbefore⟩
  | drop _ _ ih =>
    rcases ih hentry with hleaf | ⟨before, hmem, hbefore⟩
    · exact .inl hleaf
    · exact .inr ⟨before, List.mem_cons_of_mem _ hmem, hbefore⟩

theorem TrimmedEntries.mem_keys (h : TrimmedEntries marker R old new) {key : String}
    (hkey : key ∈ Entries.keys new) : key = marker ∨ key ∈ Entries.keys old := by
  induction h with
  | nil => simp [Entries.keys] at hkey
  | mark => exact .inl (List.mem_singleton.1 hkey)
  | keep _ _ ih =>
    rcases List.mem_cons.1 hkey with rfl | hrest
    · exact .inr List.mem_cons_self
    · exact (ih hrest).imp_right (List.mem_cons_of_mem _)
  | drop _ _ ih => exact (ih hkey).imp_right (List.mem_cons_of_mem _)

theorem TrimmedEntries.contains (h : TrimmedEntries marker R old new) {key : String}
    (hkey : isExampleKey key = false) (hold : Entries.contains old key = true) :
    Entries.contains new key = true := by
  induction h with
  | nil => exact hold
  | mark => simp [Entries.contains] at hold
  | keep _ _ ih =>
    simp only [Entries.contains, List.any_cons, Bool.or_eq_true] at hold ih ⊢
    exact hold.imp_right ih
  | @drop first _ _ _ hexample _ ih =>
    simp only [Entries.contains, List.any_cons, Bool.or_eq_true] at hold ih ⊢
    refine ih (hold.resolve_left fun hfirst => ?_)
    simp [beq_iff_eq.1 hfirst, hkey] at hexample

theorem TrimmedEntries.filter_mapValues {g : String → Node → Node} {named : Bool}
    {entries : Entries Node} (h : ∀ entry ∈ entries, R entry.2 (g entry.1 entry.2)) :
    TrimmedEntries marker R entries
      (Entries.mapValues g (entries.filter fun entry => isKept named entry.1)) := by
  induction entries with
  | nil => exact .nil
  | cons entry rest ih =>
    obtain ⟨hfirst, hrest⟩ := List.forall_mem_cons.1 h
    rw [List.filter_cons]
    split
    next => exact .keep hfirst (ih hrest)
    next hkept =>
      refine .drop ?_ (ih hrest)
      simp only [isKept, Bool.or_eq_true, not_or] at hkept
      simpa using hkept.2

theorem TrimmedEntries.mapValues {g : String → Node → Node} {entries : Entries Node}
    (h : ∀ entry ∈ entries, R entry.2 (g entry.1 entry.2)) :
    TrimmedEntries marker R entries (Entries.mapValues g entries) := by
  have hall : (entries.filter fun entry => isKept true entry.1) = entries :=
    List.filter_eq_self.2 fun _ _ => rfl
  have hfilter : TrimmedEntries marker R entries
      (Entries.mapValues g (entries.filter fun entry => isKept true entry.1)) :=
    TrimmedEntries.filter_mapValues h
  rwa [hall] at hfilter

theorem TrimmedEntries.modify {f : Node → Node} {key : String} (hrefl : ∀ value, R value value)
    (hf : ∀ value, R value (f value)) (entries : Entries Node) :
    TrimmedEntries marker R entries (Entries.modify f key entries) := by
  induction entries with
  | nil => exact .nil
  | cons entry rest ih =>
    obtain ⟨first, value⟩ := entry
    have hrest : TrimmedEntries marker R rest rest := by
      simpa [Entries.mapValues] using
        TrimmedEntries.mapValues (g := fun _ value => value) fun entry _ => hrefl entry.2
    rw [Entries.modify]
    split
    · exact .keep (hf value) hrest
    · exact .keep (hrefl value) ih

theorem TrimmedEntries.replace (h : TrimmedEntries marker R old new)
    (hR : ∀ value, R value (.ofBool true)) :
    TrimmedEntries marker R old
      (Entries.mapValues (fun key value => if key = marker then .ofBool true else value) new) := by
  induction h with
  | nil => exact .nil
  | mark => simpa using TrimmedEntries.mark
  | keep hvalue _ ih =>
    rw [Entries.mapValues_cons]
    split
    · exact .keep (hR _) ih
    · exact .keep hvalue ih
  | drop hexample _ ih => exact .drop hexample ih

theorem TrimmedEntries.append (h : TrimmedEntries marker R old new)
    (hnew : Entries.contains new marker = false) :
    TrimmedEntries marker R old (new ++ [(marker, .ofBool true)]) := by
  induction h with
  | nil => exact .mark
  | mark => simp [Entries.contains] at hnew
  | keep hvalue _ ih =>
    simp only [Entries.contains, List.any_cons, Bool.or_eq_false_iff] at hnew ih
    exact .keep hvalue (ih hnew.2)
  | drop hexample _ ih => exact .drop hexample (ih hnew)

theorem TrimmedEntries.complete (h : TrimmedEntries marker R old new)
    (hR : ∀ value, R value (.ofBool true)) :
    TrimmedEntries marker R old (Nullable.complete marker new) := by
  unfold Nullable.complete
  split
  · split
    · exact h.replace hR
    next hnew => exact h.append (by simpa using hnew)
  · exact h

theorem Trimmed.field? {old new value : Node} (h : Trimmed marker old new) {key : String}
    (hkey : isExampleKey key = false) (hvalue : new.field? key = some value) :
    value.entries? = none ∨
      ∃ before, old.field? key = some before ∧ Trimmed marker before value := by
  cases h with
  | leaf hleaf => simp [Node.field?_of_entries?_none hleaf] at hvalue
  | mapping hentries => exact hentries.get? hkey hvalue

theorem Trimmed.of_mapping {old : Node} (h : Trimmed marker old (.mapping new)) :
    ∃ entries, old = .mapping entries ∧ TrimmedEntries marker (Trimmed marker) entries new := by
  cases h with
  | leaf hleaf => simp [Node.entries?] at hleaf
  | mapping hentries => exact ⟨_, rfl, hentries⟩

/-- The value of a key that is no example, if both trees have a mapping there. -/
theorem Trimmed.mapping_at {old new : Node} (h : Trimmed marker old new) {key : String}
    (hkey : isExampleKey key = false) {later : Entries Node}
    (hlater : new.field? key = some (.mapping later)) :
    ∃ entries, old.field? key = some (.mapping entries) ∧
      TrimmedEntries marker (Trimmed marker) entries later := by
  rcases h.field? hkey hlater with hleaf | ⟨before, hbefore, htrimmed⟩
  · simp [Node.entries?] at hleaf
  · obtain ⟨entries, rfl, hentries⟩ := htrimmed.of_mapping
    exact ⟨entries, hbefore, hentries⟩

theorem Trimmed.operations {old new : Document} (h : Trimmed marker old.root new.root)
    {operation : String × HttpMethod × Node} (hoperation : operation ∈ new.operations) :
    operation.2.2.entries? = none ∨
      ∃ before, (operation.1, operation.2.1, before) ∈ old.operations ∧
        Trimmed marker before operation.2.2 := by
  obtain ⟨routes, entries, key, hpaths, hroute, hentry, hmethod⟩ :=
    Bodies.mem_operations.1 hoperation
  obtain ⟨oldRoutes, holdPaths, hroutes⟩ := h.mapping_at (by decide) hpaths
  rcases hroutes.mem hroute with hleaf | ⟨item, hitem, htrimmed⟩
  · simp [Node.entries?] at hleaf
  · obtain ⟨oldEntries, rfl, hentries⟩ := htrimmed.of_mapping
    rcases hentries.mem hentry with hleaf | ⟨before, hbefore, hkept⟩
    · exact .inl hleaf
    · exact .inr ⟨before, Bodies.mem_operations.2
        ⟨oldRoutes, oldEntries, key, holdPaths, hitem, hbefore, hmethod⟩, hkept⟩

theorem Trimmed.ofOperation {old new : Node} (h : Trimmed marker old new)
    {body : Bodies.Kind × Node} (hbody : body ∈ Bodies.ofOperation new) :
    body.2.entries? = none ∨
      ∃ before, (body.1, before) ∈ Bodies.ofOperation old ∧ Trimmed marker before body.2 := by
  rcases Bodies.mem_ofOperation.1 hbody with
    ⟨hkind, hrequest⟩ | ⟨entries, key, hresponses, hkind, hmem⟩
  · rcases h.field? (by decide) hrequest with hleaf | ⟨before, hbefore, hkept⟩
    · exact .inl hleaf
    · exact .inr ⟨before, Bodies.mem_ofOperation.2 (.inl ⟨hkind, hbefore⟩), hkept⟩
  · obtain ⟨oldEntries, hold, hentries⟩ := h.mapping_at (by decide) hresponses
    rcases hentries.mem hmem with hleaf | ⟨before, hbefore, hkept⟩
    · exact .inl hleaf
    · exact .inr ⟨before, Bodies.mem_ofOperation.2
        (.inr ⟨oldEntries, key, hold, hkind, hbefore⟩), hkept⟩

theorem Trimmed.ofCategory {old new : Document} (h : Trimmed marker old.root new.root)
    {category : ComponentKind} (hcategory : isExampleKey category.key = false)
    {kind : Bodies.Kind} {body : Bodies.Kind × Node}
    (hbody : body ∈ Bodies.ofValues kind (new.components? category)) :
    body.2.entries? = none ∨
      ∃ before, (body.1, before) ∈ Bodies.ofValues kind (old.components? category) ∧
        Trimmed marker before body.2 := by
  obtain ⟨entries, key, hcomponents, hkind, hmem⟩ := Bodies.mem_ofValues.1 hbody
  obtain ⟨regions, hregions, hentries⟩ := Document.components?_eq_some.1 hcomponents
  obtain ⟨oldRegions, holdRegions, htrimmed⟩ := h.mapping_at (by decide) hregions
  obtain ⟨oldEntries, holdEntries, hkept⟩ :=
    (Trimmed.mapping htrimmed).mapping_at hcategory hentries
  rcases hkept.mem hmem with hleaf | ⟨before, hbefore, hbody⟩
  · exact .inl hleaf
  · exact .inr ⟨before, Bodies.mem_ofValues.2 ⟨oldEntries, key,
      Document.components?_eq_some.2 ⟨oldRegions, holdRegions, holdEntries⟩, hkind, hbefore⟩, hbody⟩

/-- Each body after a trimming is a leaf or comes from a body before it. -/
theorem Trimmed.bodies {old new : Document} (h : Trimmed marker old.root new.root)
    {body : Bodies.Kind × Node} (hbody : body ∈ Bodies.all new) :
    body.2.entries? = none ∨
      ∃ before, (body.1, before) ∈ Bodies.all old ∧ Trimmed marker before body.2 := by
  rcases List.mem_append.1 hbody with hoperations | hcomponents
  · obtain ⟨operation, hmem, hof⟩ := List.mem_flatMap.1 hoperations
    rcases h.operations hmem with hleaf | ⟨before, hbefore, htrimmed⟩
    · have hnone := Node.field?_of_entries?_none hleaf
      simp [Bodies.mem_ofOperation, hnone] at hof
    · refine (htrimmed.ofOperation hof).imp_right fun ⟨found, hfound, hkept⟩ => ⟨found, ?_, hkept⟩
      exact List.mem_append_left _ (List.mem_flatMap.2 ⟨_, hbefore, hfound⟩)
  · rcases List.mem_append.1 hcomponents with hrequests | hresponses
    · refine (h.ofCategory (by decide) hrequests).imp_right fun ⟨found, hfound, hkept⟩ =>
        ⟨found, ?_, hkept⟩
      exact List.mem_append_right _ (List.mem_append_left _ hfound)
    · refine (h.ofCategory (by decide) hresponses).imp_right fun ⟨found, hfound, hkept⟩ =>
        ⟨found, ?_, hkept⟩
      exact List.mem_append_right _ (List.mem_append_right _ hfound)

theorem trimmed_dedupeValue (marker key : String) (node : Node) :
    Trimmed marker node (dedupeValue key node) := by
  induction node using Node.induct generalizing key with
  | scalar value => exact .leaf rfl
  | sequence items _ => exact .leaf (by simp [Node.entries?])
  | mapping entries ih =>
    rw [dedupeValue_mapping]
    exact .mapping (.mapValues fun entry hmem => ih entry hmem entry.1)

theorem trimmed_marked (marker : String) (node : Node) :
    Trimmed marker node (marked marker node) := by
  induction node using Node.induct with
  | scalar value => exact .leaf rfl
  | sequence items _ => exact .leaf (by simp [Node.entries?])
  | mapping entries ih =>
    rw [marked_mapping]
    exact .mapping (.complete (.mapValues ih) fun _ => .leaf rfl)

theorem trimmed_stripped (marker : String) (named : Bool) (node : Node) :
    Trimmed marker node (stripped named node) := by
  induction node using Node.induct generalizing named with
  | scalar value => exact .leaf (by simp [Node.entries?])
  | sequence items _ => exact .leaf (by simp [Node.entries?])
  | mapping entries ih =>
    rw [stripped_mapping]
    exact .mapping (.filter_mapValues fun entry hmem => ih entry hmem _)

theorem Trimmed.refl (node : Node) : Trimmed marker node node := by
  induction node using Node.induct with
  | scalar value => exact .leaf rfl
  | sequence items _ => exact .leaf rfl
  | mapping entries ih =>
    refine .mapping ?_
    simpa [Entries.mapValues] using TrimmedEntries.mapValues (g := fun _ value => value) ih

theorem Trimmed.modifyField {f : Node → Node} (hf : ∀ value, Trimmed marker value (f value))
    (key : String) (node : Node) : Trimmed marker node (node.modifyField f key) := by
  cases node with
  | scalar value => exact .refl _
  | sequence items => exact .refl _
  | mapping entries => exact .mapping (.modify Trimmed.refl hf entries)

theorem Trimmed.onEntries {g : String → Node → Node}
    (hg : ∀ key value, Trimmed marker value (g key value)) (node : Node) :
    Trimmed marker node (node.onEntries (Entries.mapValues g)) := by
  cases node with
  | scalar value => exact .refl _
  | sequence items => exact .refl _
  | mapping entries => exact .mapping (.mapValues fun entry _ => hg entry.1 entry.2)

theorem Trimmed.plain {old new : Node} (h : Trimmed marker old new)
    (hmarker : MediaTypes.hasTypeParameters marker = false) (hold : MediaTypes.Plain old) :
    MediaTypes.Plain new := by
  intro content hcontent key hkey
  obtain ⟨entries, hentries, htrimmed⟩ := h.mapping_at (by decide) hcontent
  rcases htrimmed.mem_keys hkey with rfl | hbefore
  · exact hmarker
  · exact hold entries hentries key hbefore

theorem Trimmed.filled {old new : Node} {defaults : List FieldDefault} (h : Trimmed marker old new)
    (hdefaults : ∀ default ∈ defaults, isExampleKey default.field = false)
    (hold : Responses.Filled defaults old) : Responses.Filled defaults new := by
  rintro entries rfl
  obtain ⟨before, rfl, htrimmed⟩ := h.of_mapping
  rcases hold before rfl with href | hfields
  · exact .inl (htrimmed.contains (by decide) href)
  · exact .inr fun default hmem => htrimmed.contains (hdefaults default hmem) (hfields default hmem)

/-- Trimming keeps media types plain. -/
theorem Trimmed.allPlain {old new : Document} (h : Trimmed marker old.root new.root)
    (hmarker : MediaTypes.hasTypeParameters marker = false) (hold : MediaTypes.AllPlain old) :
    MediaTypes.AllPlain new := by
  intro body hbody
  rcases h.bodies hbody with hleaf | ⟨before, hbefore, htrimmed⟩
  · intro content hcontent
    simp [Node.field?_of_entries?_none hleaf] at hcontent
  · exact htrimmed.plain hmarker (hold _ hbefore)

/-- Trimming keeps responses complete. -/
theorem Trimmed.allFilled {old new : Document} {defaults : List FieldDefault}
    (h : Trimmed marker old.root new.root)
    (hdefaults : ∀ default ∈ defaults, isExampleKey default.field = false)
    (hold : Responses.AllFilled defaults old) : Responses.AllFilled defaults new := by
  intro body hbody hkind
  rcases h.bodies hbody with hleaf | ⟨before, hbefore, htrimmed⟩
  · intro entries hentries
    simp [hentries, Node.entries?] at hleaf
  · exact htrimmed.filled hdefaults (hold _ hbefore hkind)

end ApiTidy
