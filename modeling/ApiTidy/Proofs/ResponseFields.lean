import ApiTidy.Proofs.Places
import ApiTidy.Proofs.Pipeline
import ApiTidy.Proofs.Sequencing

/-!
Completed responses. A response is a value of an operation's `responses`, or a component of that
category. Unless it is a reference, it gets the listed fields that it lacks after those it has, each
with the first value that is listed for it, and nothing else in the document changes.
-/
namespace ApiTidy.Responses
open Document Node
variable {defaults : List FieldDefault} {entries : Entries Node} {default : FieldDefault}
  {place : List Step → Prop} {way : List Step}

/-- Where responses stand: in an operation, and among the components. -/
inductive IsResponse : List Step → Prop
  | operation (route : String) (method : HttpMethod) (status : String) :
      IsResponse [.key pathsKey, .key route, .key method.key, .key "responses", .key status]
  | component (name : String) :
      IsResponse [.key componentsKey, .key ComponentKind.responses.key, .key name]

/-- The first value that is listed for a field. -/
def firstDefault? (defaults : List FieldDefault) (key : String) : Option Node :=
  (defaults.find? (·.field = key)).map (·.value)

/-- The listed fields that a mapping lacks, each in the place and with the value where it is listed
first. -/
def missing (defaults : List FieldDefault) (entries : Entries Node) : Entries Node :=
  let lacked := defaults.filter fun default => !Entries.contains entries default.field
  (lacked.eraseDupsBy (·.field == ·.field)).map fun default => (default.field, default.value)

/-- A response with the fields that it lacked. References, and what is no mapping, stay. -/
def completed (defaults : List FieldDefault) : Node → Node
  | .mapping entries =>
    .mapping <| if Entries.contains entries refKey then entries
      else entries ++ missing defaults entries
  | other => other

/-- The places of the fields that a response lacks. -/
def lackedFields (defaults : List FieldDefault) (response : Node) : Set (List Step) :=
  {way | ∃ entries, response = .mapping entries ∧ Entries.contains entries refKey = false ∧
    ∃ default ∈ defaults, Entries.contains entries default.field = false ∧
      way = [.key default.field]}

theorem isResponse_paths : IsResponse (.key pathsKey :: way) ↔ ∃ route, ∃ method : HttpMethod,
    ∃ status, way = [.key route, .key method.key, .key "responses", .key status] := by
  have hne : pathsKey ≠ componentsKey := by decide
  constructor
  · generalize hway : Step.key pathsKey :: way = found
    rintro (⟨route, method, status⟩ | name)
    · exact ⟨route, method, status, (List.cons.inj hway).2⟩
    · exact absurd (Step.key.inj (List.cons.inj hway).1) hne
  · rintro ⟨route, method, status, rfl⟩
    exact .operation route method status

theorem isResponse_components : IsResponse (.key componentsKey :: way) ↔
    ∃ name, way = [.key ComponentKind.responses.key, .key name] := by
  have hne : componentsKey ≠ pathsKey := by decide
  constructor
  · generalize hway : Step.key componentsKey :: way = found
    rintro (⟨route, method, status⟩ | name)
    · exact absurd (Step.key.inj (List.cons.inj hway).1) hne
    · exact ⟨name, (List.cons.inj hway).2⟩
  · rintro ⟨name, rfl⟩
    exact .component name

theorem IsResponse.starts (h : IsResponse way) :
    ∃ rest, way = .key pathsKey :: rest ∨ way = .key componentsKey :: rest := by
  cases h
  · exact ⟨_, .inl rfl⟩
  · exact ⟨_, .inr rfl⟩

theorem missing_cons_of_contains (h : Entries.contains entries default.field = true) :
    missing (default :: defaults) entries = missing defaults entries := by
  simp [missing, h]

theorem missing_cons_of_not (h : Entries.contains entries default.field = false) :
    missing (default :: defaults) entries = (default.field, default.value) ::
      missing defaults (entries ++ [(default.field, default.value)]) := by
  have hlacked : (fun other : FieldDefault =>
      !Entries.contains (entries ++ [(default.field, default.value)]) other.field) =
        fun other => (other.field == default.field) = false &&
          !Entries.contains entries other.field := by
    funext other
    rw [Entries.contains_concat, Bool.not_or, Bool.and_comm, BEq.comm]
    cases other.field == default.field <;> rfl
  simp [missing, h, List.eraseDupsBy_cons, hlacked, List.filter_filter]

theorem fillFields_eq (defaults : List FieldDefault) (entries : Entries Node) :
    fillFields defaults entries =
      (entries ++ missing defaults entries, (missing defaults entries).length) := by
  -- A field that is added is no longer missing for the defaults after it.
  induction defaults generalizing entries with
  | nil => simp [fillFields, missing]
  | cons default rest ih =>
    rw [fillFields]
    cases h : Entries.contains entries default.field with
    | true => rw [if_pos rfl, ih, missing_cons_of_contains h]
    | false =>
      have hnew : default.field ∉ Entries.keys entries := by
        simpa [Entries.contains_eq_isSome, ← Entries.get?_isSome_iff] using h
      rw [if_neg Bool.false_ne_true, Entries.insert_of_notMem hnew, ih, missing_cons_of_not h]
      simp only [List.append_assoc, List.singleton_append, List.length_cons]

/-- A field keeps its value, or gets the first one that is listed for it. -/
theorem get?_append_missing (defaults : List FieldDefault) (entries : Entries Node) (key : String) :
    Entries.get? (entries ++ missing defaults entries) key =
      (Entries.get? entries key).or (firstDefault? defaults key) := by
  induction defaults generalizing entries with
  | nil => simp [missing, firstDefault?]
  | cons default rest ih =>
    by_cases hkey : default.field = key
    · subst hkey
      have hfirst : firstDefault? (default :: rest) default.field = some default.value := by
        simp [firstDefault?]
      cases h : Entries.contains entries default.field with
      | true =>
        rw [Entries.contains_eq_isSome] at h
        obtain ⟨value, hvalue⟩ := Option.isSome_iff_exists.1 h
        simp [Entries.get?_append, hvalue]
      | false =>
        have hnone : Entries.get? entries default.field = none := by
          rw [Entries.contains_eq_isSome] at h
          simpa using h
        rw [missing_cons_of_not h, hfirst, Entries.get?_append, hnone]
        simp
    · have hfirst : firstDefault? (default :: rest) key = firstDefault? rest key := by
        simp [firstDefault?, hkey]
      cases h : Entries.contains entries default.field with
      | true => rw [missing_cons_of_contains h, ih, hfirst]
      | false =>
        rw [missing_cons_of_not h, hfirst, ← List.singleton_append, ← List.append_assoc, ih]
        simp [Entries.get?_append, hkey]

theorem mem_keys_missing {key : String} : key ∈ Entries.keys (missing defaults entries) ↔
    Entries.contains entries key = false ∧ ∃ default ∈ defaults, default.field = key := by
  induction defaults generalizing entries with
  | nil => simp [missing, Entries.keys]
  | cons default rest ih =>
    cases h : Entries.contains entries default.field with
    | true =>
      rw [missing_cons_of_contains h, ih]
      refine and_congr_right fun hkey => ?_
      have hne : default.field ≠ key := by
        rintro rfl
        simp [h] at hkey
      simp [hne]
    | false =>
      rw [missing_cons_of_not h, Entries.keys, List.map_cons, List.mem_cons, ← Entries.keys, ih,
        Entries.contains_concat]
      by_cases hkey : default.field = key
      · simp [hkey.symm, h]
      · simp [hkey, Ne.symm hkey]

theorem distinct_missing (defaults : List FieldDefault) (entries : Entries Node) :
    Entries.Distinct (missing defaults entries) := by
  induction defaults generalizing entries with
  | nil => exact List.nodup_nil
  | cons default rest ih =>
    cases h : Entries.contains entries default.field with
    | true =>
      rw [missing_cons_of_contains h]
      exact ih entries
    | false =>
      rw [missing_cons_of_not h]
      refine List.nodup_cons.2 ⟨fun hmem => ?_, ih _⟩
      simpa [Entries.contains_concat] using (mem_keys_missing.1 hmem).1

theorem completed_mapping (defaults : List FieldDefault) (entries : Entries Node) :
    completed defaults (.mapping entries) = .mapping
      (if Entries.contains entries refKey then entries
        else entries ++ missing defaults entries) := rfl

theorem fillResponse_fst (defaults : List FieldDefault) (response : Node) :
    (fillResponse defaults response).1 = completed defaults response := by
  cases response with
  | scalar value => rfl
  | sequence items => rfl
  | mapping entries => rw [fillResponse_mapping, completed_mapping, fillFields_eq]

theorem fillResponse_snd (defaults : List FieldDefault) (entries : Entries Node) :
    (fillResponse defaults (.mapping entries)).2 =
      if Entries.contains entries refKey then 0 else (missing defaults entries).length := by
  simp only [fillResponse, Change.inMapping, fillFields_eq]
  split <;> rfl

theorem lackedFields_mapping (h : Entries.contains entries refKey = false) :
    lackedFields defaults (.mapping entries) =
      (fun key => [Step.key key]) '' (Entries.keys (missing defaults entries)).toFinset := by
  ext way
  simp only [Set.mem_image, Finset.mem_coe, List.mem_toFinset, mem_keys_missing]
  constructor
  · rintro ⟨_, hentries, -, default, hmem, hlacks, rfl⟩
    obtain rfl := Node.mapping.inj hentries
    exact ⟨default.field, ⟨hlacks, default, hmem, rfl⟩, rfl⟩
  · rintro ⟨_, ⟨hlacks, default, hmem, rfl⟩, rfl⟩
    exact ⟨entries, rfl, h, default, hmem, hlacks, rfl⟩

theorem encard_lackedFields_mapping (h : Entries.contains entries refKey = false) :
    (lackedFields defaults (.mapping entries)).encard = (missing defaults entries).length := by
  have hinj : Function.Injective fun key => [Step.key key] := fun first second h =>
    Step.key.inj (List.head_eq_of_cons_eq h)
  have hdistinct := List.toFinset_card_of_nodup (distinct_missing defaults entries)
  rw [lackedFields_mapping h, hinj.encard_image, Set.encard_coe_eq_coe_finsetCard, hdistinct,
    Entries.keys, List.length_map]

/-- The count is that of the fields that the response lacks. -/
theorem encard_lackedFields (defaults : List FieldDefault) (response : Node) :
    (lackedFields defaults response).encard = (fillResponse defaults response).2 := by
  have hnone (h : ∀ entries, response = .mapping entries →
      Entries.contains entries refKey = true) : lackedFields defaults response = ∅ := by
    refine Set.eq_empty_of_forall_notMem ?_
    rintro way ⟨entries, hentries, href, -⟩
    simp [h entries hentries] at href
  cases response with
  | scalar value =>
    rw [hnone (by simp)]
    exact Set.encard_empty
  | sequence items =>
    rw [hnone (by simp)]
    exact Set.encard_empty
  | mapping entries =>
    rw [fillResponse_snd]
    cases href : Entries.contains entries refKey with
    | true =>
      rw [hnone fun other hother => Node.mapping.inj hother ▸ href]
      exact Set.encard_empty
    | false => exact encard_lackedFields_mapping href

/-- Complete the responses that are the values of a mapping. -/
def fillResponses (defaults : List FieldDefault) : Change Node :=
  Change.inMapping <| Change.onValues fun _ => fillResponse defaults

theorem backfill_eq (defaults : List FieldDefault) :
    backfill defaults = Change.andThen
      (Bodies.onOperations (Change.atField "responses" (fillResponses defaults)))
      (Bodies.onCategory .responses (fillResponse defaults)) := by
  simp only [backfill, Bodies.onAll, Bodies.onOperation, Bodies.onCategory, fillResponses,
    Change.onValues_keep, Change.inMapping_keep, Change.atField_keep, Change.keep_andThen]

theorem madeAt_responses (hplace : ∀ way, place way ↔ ∃ status, way = [.key status])
    {responses : Node} (h : responses.WellFormed) :
    Change.MadeAt place (completed defaults) (lackedFields defaults) responses
      (fillResponses defaults responses) := by
  refine .onValues h (fun way hway => ?_) fun status response _ => ?_
  · obtain ⟨status, rfl⟩ := (hplace way).1 hway
    exact ⟨status, [], rfl⟩
  · exact Change.madeAt_top (fun way => (hplace _).trans (by simp))
      (fillResponse_fst defaults response) (encard_lackedFields defaults response)

theorem madeAt_operation (route : String) {key : String} {method : HttpMethod}
    (hkey : method.key = key) {operation : Node} (h : operation.WellFormed) :
    Change.MadeAt (fun rest => IsResponse (.key pathsKey :: .key route :: .key key :: rest))
      (completed defaults) (lackedFields defaults) operation
      (Change.atField "responses" (fillResponses defaults) operation) := by
  refine .atField h (fun way hway => ?_) fun responses hresponses => ?_
  · obtain ⟨_, _, status, ⟨⟩⟩ := isResponse_paths.1 hway
    exact ⟨[.key status], rfl⟩
  · refine madeAt_responses (fun way => ⟨fun hway => ?_, ?_⟩) (h.field? hresponses)
    · obtain ⟨_, _, status, ⟨⟩⟩ := isResponse_paths.1 hway
      exact ⟨status, rfl⟩
    · rintro ⟨status, rfl⟩
      exact hkey ▸ .operation route method status

theorem madeAt_pathItem (route : String) {item : Node} (h : item.WellFormed) :
    Change.MadeAt (fun rest => IsResponse (.key pathsKey :: .key route :: rest))
      (completed defaults) (lackedFields defaults) item
      (Change.inMapping (Change.onValues fun key =>
        if (HttpMethod.ofKey? key).isSome then Change.atField "responses" (fillResponses defaults)
        else Change.keep) item) := by
  refine .onValues h (fun way hway => ?_) fun key operation hoperation => ?_
  · obtain ⟨_, method, status, ⟨⟩⟩ := isResponse_paths.1 hway
    exact ⟨method.key, _, rfl⟩
  · split
    next hmethod =>
      obtain ⟨method, hmethod⟩ := Option.isSome_iff_exists.1 hmethod
      exact madeAt_operation route (HttpMethod.key_of_ofKey? hmethod) (h.field? hoperation)
    next hmethod =>
      refine Change.madeAt_of_unreached fun way hway => ?_
      obtain ⟨_, method, _, ⟨⟩⟩ := isResponse_paths.1 hway
      simp [HttpMethod.ofKey?_key] at hmethod

theorem madeAt_paths {paths : Node} (h : paths.WellFormed) :
    Change.MadeAt (fun rest => IsResponse (.key pathsKey :: rest)) (completed defaults)
      (lackedFields defaults) paths
      (Change.inMapping (Change.onValues fun _ => Change.inMapping <| Change.onValues fun key =>
        if (HttpMethod.ofKey? key).isSome then Change.atField "responses" (fillResponses defaults)
        else Change.keep) paths) := by
  refine .onValues h (fun way hway => ?_) fun route item hitem => ?_
  · obtain ⟨route, _, _, rfl⟩ := isResponse_paths.1 hway
    exact ⟨route, _, rfl⟩
  · exact madeAt_pathItem route (h.field? hitem)

theorem madeAt_components {components : Node} (h : components.WellFormed) :
    Change.MadeAt (fun rest => IsResponse (.key componentsKey :: rest)) (completed defaults)
      (lackedFields defaults) components
      (Change.atField ComponentKind.responses.key (fillResponses defaults) components) := by
  refine .atField h (fun way hway => ?_) fun responses hresponses => ?_
  · obtain ⟨name, rfl⟩ := isResponse_components.1 hway
    exact ⟨[.key name], rfl⟩
  · exact madeAt_responses (fun way => isResponse_components.trans (by simp)) (h.field? hresponses)

theorem madeAt_backfill (defaults : List FieldDefault) {root : Node} (h : root.WellFormed) :
    Change.MadeAt IsResponse (completed defaults) (lackedFields defaults) root
      (backfill defaults root) := by
  have hne : pathsKey ≠ componentsKey := by decide
  rw [backfill_eq, Bodies.onOperations, Bodies.onCategory, Change.andThen_atField_of_ne hne _ _ h]
  refine .onValues h (fun way hway => ?_) fun key region hregion => ?_
  · obtain ⟨rest, rfl | rfl⟩ := hway.starts
    · exact ⟨pathsKey, rest, rfl⟩
    · exact ⟨componentsKey, rest, rfl⟩
  · split
    next hkey =>
      subst hkey
      exact madeAt_paths (h.field? hregion)
    next hpaths =>
      split
      next hkey =>
        subst hkey
        exact madeAt_components (h.field? hregion)
      next hcomponents =>
        refine Change.madeAt_of_unreached fun way hway => ?_
        obtain ⟨rest, hway | hway⟩ := hway.starts
        · exact absurd (Step.key.inj (List.cons.inj hway).1) hpaths
        · exact absurd (Step.key.inj (List.cons.inj hway).1) hcomponents

/-- A completion gives every response that is a mapping and no reference the listed fields, those it
lacked after the old ones, and counts these. Nothing else changes. -/
theorem backfillResponses_exact (defaults : List FieldDefault) (doc : Document)
    (h : doc.root.WellFormed) : ∃ count changed,
      (Pass.backfillResponses defaults).apply doc = .ok count changed ∧
      Change.MadeAt IsResponse (completed defaults) (lackedFields defaults) doc.root
        (changed.root, count) ∧
      ∀ way entries, IsResponse way → doc.root.reach? way = some (.mapping entries) →
        Entries.contains entries refKey = false → ∃ filled,
          changed.root.reach? way = some (.mapping filled) ∧
          filled = entries ++ missing defaults entries ∧
          ∀ key, Entries.get? filled key =
            (Entries.get? entries key).or (firstDefault? defaults key) := by
  have hmade := madeAt_backfill defaults h
  refine ⟨_, _, rfl, hmade, fun way entries hway hreach href => ?_⟩
  refine ⟨entries ++ missing defaults entries, ?_, rfl, get?_append_missing defaults entries⟩
  refine (hmade.there way hway).trans ?_
  rw [hreach, Option.map_some, completed_mapping, href]
  rfl

/-- A response in an operation, beside a reference and a text, and one among the components. -/
def halfDescribed : Document :=
  ⟨.mapping [
    ("paths", .mapping [("/a", .mapping [("get", .mapping [("responses", .mapping [
      ("200", .mapping [("description", .ofString "Found")]),
      ("404", (Reference.mk .responses "NotFound").toNode),
      ("default", .ofString "Fault")])])])]),
    ("components", .mapping [("responses", .mapping [("NotFound", .mapping [])])])]⟩

/-- Two values for the description, and between them one for the key of references. -/
def descriptions : List FieldDefault :=
  [⟨"description", .ofString ""⟩, ⟨"$ref", .ofString "#"⟩, ⟨"description", .ofString "None"⟩]

theorem backfillResponses_exact_of_halfDescribed : halfDescribed.root.WellFormed ∧ ∃ changed,
    (Pass.backfillResponses descriptions).apply halfDescribed = .ok 3 changed ∧
    Change.MadeAt IsResponse (completed descriptions) (lackedFields descriptions) halfDescribed.root
      (changed.root, 3) ∧
    changed.root.reach? [.key "components", .key "responses", .key "NotFound"] =
      some (.mapping [("description", .ofString ""), ("$ref", .ofString "#")]) := by
  have hroot : halfDescribed.root.WellFormed := by decide
  have hcount : (backfill descriptions halfDescribed.root).2 = 3 := by decide
  obtain ⟨count, changed, happly, hmade, hfilled⟩ :=
    backfillResponses_exact descriptions halfDescribed hroot
  obtain rfl : 3 = count := hcount.symm.trans (EStateM.Result.ok.inj happly).1
  obtain ⟨filled, hreach, rfl, -⟩ := hfilled _ [] (.component "NotFound") rfl rfl
  exact ⟨hroot, changed, happly, hmade, hreach⟩

end ApiTidy.Responses
