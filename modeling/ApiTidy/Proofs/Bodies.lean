import ApiTidy.Bodies
import ApiTidy.Proofs.Change
import ApiTidy.Proofs.Components

/-!
The bodies of a document as a list. A change of all bodies changes each one of this list and, as it
finds nothing to do in a document in whose bodies it finds nothing to do, nothing else.
-/
namespace ApiTidy.Bodies

/-- The bodies that are the values of a mapping, if there is one. -/
def ofValues (kind : Kind) (entries : Option (Entries Node)) : List (Kind × Node) :=
  (entries.getD []).map fun entry => (kind, entry.2)

/-- The bodies of an operation. -/
def ofOperation (operation : Node) : List (Kind × Node) :=
  (operation.field? "requestBody").toList.map (Kind.request, ·) ++
    ofValues .response ((operation.field? "responses").bind Node.entries?)

/-- The bodies of a document. -/
def all (doc : Document) : List (Kind × Node) :=
  doc.operations.flatMap (fun operation => ofOperation operation.2.2) ++
    (ofValues .request (doc.components? .requestBodies) ++
      ofValues .response (doc.components? .responses))

/-- The bodies of a document are in its paths and in two categories of components. -/
theorem all_congr {old new : Document}
    (hpaths : new.root.field? Document.pathsKey = old.root.field? Document.pathsKey)
    (hrequests : new.components? .requestBodies = old.components? .requestBodies)
    (hresponses : new.components? .responses = old.components? .responses) :
    all new = all old := by
  simp only [all, Document.operations, Document.paths, Document.region?, hpaths, hrequests,
    hresponses]

theorem mem_operations {doc : Document} {operation : String × HttpMethod × Node} :
    operation ∈ doc.operations ↔ ∃ routes entries key,
      doc.root.field? Document.pathsKey = some (.mapping routes) ∧
        (operation.1, .mapping entries) ∈ routes ∧ (key, operation.2.2) ∈ entries ∧
          HttpMethod.ofKey? key = some operation.2.1 := by
  obtain ⟨route, method, node⟩ := operation
  constructor
  · intro h
    obtain ⟨⟨path, item⟩, hroute, hoperation⟩ := List.mem_flatMap.1 h
    obtain ⟨⟨key, value⟩, hentry, hvalue⟩ := List.mem_filterMap.1 hoperation
    obtain ⟨found, hmethod, hsame⟩ := Option.map_eq_some_iff.1 hvalue
    obtain ⟨rfl, rfl, rfl⟩ : path = route ∧ found = method ∧ value = node := by simpa using hsame
    unfold Document.paths Document.region? at hroute
    cases hpaths : doc.root.field? Document.pathsKey with
    | none => simp [hpaths] at hroute
    | some paths =>
      rw [hpaths] at hroute
      cases paths with
      | scalar scalar => simp [Node.entries?] at hroute
      | sequence items => simp [Node.entries?] at hroute
      | mapping routes =>
        cases item with
        | scalar scalar => simp [Node.entries?] at hentry
        | sequence items => simp [Node.entries?] at hentry
        | mapping entries => exact ⟨routes, entries, key, rfl, hroute, hentry, hmethod⟩
  · rintro ⟨routes, entries, key, hpaths, hroute, hentry, hmethod⟩
    refine List.mem_flatMap.2 ⟨(route, .mapping entries), ?_, ?_⟩
    · simpa [Document.paths, Document.region?, hpaths, Node.entries?] using hroute
    · exact List.mem_filterMap.2 ⟨(key, node), hentry, by simp [hmethod]⟩

theorem mem_ofValues {kind : Kind} {values : Option (Entries Node)} {body : Kind × Node} :
    body ∈ ofValues kind values ↔
      ∃ entries key, values = some entries ∧ body.1 = kind ∧ (key, body.2) ∈ entries := by
  obtain ⟨found, node⟩ := body
  constructor
  · intro h
    obtain ⟨⟨key, value⟩, hmem, hsame⟩ := List.mem_map.1 h
    obtain ⟨rfl, rfl⟩ : kind = found ∧ value = node := by simpa using hsame
    cases values with
    | none => simp at hmem
    | some entries => exact ⟨entries, key, rfl, rfl, hmem⟩
  · rintro ⟨entries, key, rfl, rfl, hmem⟩
    exact List.mem_map.2 ⟨(key, node), hmem, rfl⟩

theorem mem_ofOperation {operation : Node} {body : Kind × Node} :
    body ∈ ofOperation operation ↔
      (body.1 = .request ∧ operation.field? "requestBody" = some body.2) ∨
        ∃ entries key, operation.field? "responses" = some (.mapping entries) ∧
          body.1 = .response ∧ (key, body.2) ∈ entries := by
  rw [ofOperation, List.mem_append, mem_ofValues]
  simp only [Node.bind_entries?_eq_some]
  refine or_congr ?_ Iff.rfl
  obtain ⟨kind, node⟩ := body
  cases operation.field? "requestBody" <;> simp [and_comm, eq_comm]

variable (change : Kind → Change Node)

/-- One body changed. -/
def changed (body : Kind × Node) : Kind × Node := (body.1, (change body.1 body.2).1)

theorem ofValues_mapValues (kind : Kind) (components : Option (Entries Node)) :
    ofValues kind (components.map (Entries.mapValues fun _ body => (change kind body).1)) =
      (ofValues kind components).map (changed change) := by
  cases components <;> simp [ofValues, changed, Entries.mapValues]

theorem ofOperation_onOperation (operation : Node) :
    ofOperation (onOperation change operation).1 =
      (ofOperation operation).map (changed change) := by
  have hother : "requestBody" ≠ "responses" := by decide
  simp only [ofOperation, onOperation, Change.andThen_fst, Change.atField_fst,
    Node.field?_modifyField_of_ne hother, Node.field?_modifyField_of_ne hother.symm,
    Node.field?_modifyField_self, Change.inMapping_fst, Change.onValues_fst, List.map_append]
  rw [Node.bind_entries?_map_onEntries, ofValues_mapValues]
  congr 1
  cases operation.field? "requestBody" <;> simp [changed]

/-- The change of every path item that `onOperations` makes. -/
def itemChange (change : Change Node) : String → Node → Node := fun _ =>
  Node.onEntries <| Entries.mapValues fun key operation =>
    if (HttpMethod.ofKey? key).isSome then (change operation).1 else operation

theorem onOperations_fst (change : Change Node) (root : Node) :
    (onOperations change root).1 =
      root.modifyField (Node.onEntries (Entries.mapValues (itemChange change)))
        Document.pathsKey := by
  have hfield : ∀ key operation,
      ((if (HttpMethod.ofKey? key).isSome then change else Change.keep) operation).1 =
        if (HttpMethod.ofKey? key).isSome then (change operation).1 else operation := by
    intro key operation
    split <;> rfl
  simp only [onOperations, Change.atField_fst, Change.inMapping_fst, Change.onValues_fst, hfield]
  rfl

theorem onCategory_fst (kind : ComponentKind) (change : Change Node) (doc : Document) :
    (onCategory kind change doc.root).1 =
      (doc.onCategory kind (Entries.mapValues fun _ body => (change body).1)).root := by
  simp [onCategory, Document.onCategory]

theorem itemOperations_itemChange (change : Change Node) (route : String) (item : Node) :
    Document.itemOperations route (itemChange change route item) =
      (Document.itemOperations route item).map fun operation =>
        (operation.1, operation.2.1, (change operation.2.2).1) := by
  cases item with
  | scalar value => rfl
  | sequence items => rfl
  | mapping entries =>
    simp only [itemChange, Document.itemOperations, Node.onEntries_mapping, Node.entries?,
      Option.getD_some, Entries.mapValues, List.filterMap_map, List.map_filterMap]
    congr 1
    funext entry
    cases hmethod : HttpMethod.ofKey? entry.1 <;> simp [hmethod]

theorem operations_onOperations (change : Change Node) (doc : Document) :
    Document.operations ⟨(onOperations change doc.root).1⟩ =
      doc.operations.map fun operation =>
        (operation.1, operation.2.1, (change operation.2.2).1) := by
  rw [onOperations_fst]
  unfold Document.operations Document.paths Document.region?
  rw [Node.field?_modifyField_self]
  cases doc.root.field? Document.pathsKey with
  | none => rfl
  | some paths =>
    cases paths with
    | scalar value => rfl
    | sequence items => rfl
    | mapping routes =>
      simp [Node.entries?, Entries.mapValues, List.flatMap_map, List.map_flatMap,
        itemOperations_itemChange]

theorem operations_onCategory (kind : ComponentKind) (f : Entries Node → Entries Node)
    (doc : Document) : (doc.onCategory kind f).operations = doc.operations := by
  have hkey : Document.pathsKey ≠ Document.componentsKey := by decide
  simp only [Document.operations, Document.paths, Document.region?, Document.onCategory,
    Node.field?_modifyField_of_ne hkey]

theorem components?_onOperations (kind : ComponentKind) (change : Change Node) (doc : Document) :
    Document.components? ⟨(onOperations change doc.root).1⟩ kind = doc.components? kind := by
  have hkey : Document.componentsKey ≠ Document.pathsKey := by decide
  rw [Document.components?_eq, Document.components?_eq, onOperations_fst,
    Node.field?_modifyField_of_ne hkey]

/-- A change of all bodies, region after region. -/
theorem onAll_fst (doc : Document) :
    (⟨(onAll change doc.root).1⟩ : Document) =
      ((Document.mk (onOperations (onOperation change) doc.root).1).onCategory .requestBodies
        (Entries.mapValues fun _ body => (change .request body).1)).onCategory .responses
          (Entries.mapValues fun _ body => (change .response body).1) := by
  simp only [onAll, Change.andThen_fst]
  rw [onCategory_fst .requestBodies _ ⟨_⟩, onCategory_fst]

/-- A change of all bodies changes each of them. -/
theorem all_onAll (doc : Document) :
    all ⟨(onAll change doc.root).1⟩ = (all doc).map (changed change) := by
  have hkinds : ComponentKind.requestBodies ≠ .responses := by decide
  rw [onAll_fst]
  unfold all
  rw [operations_onCategory, operations_onCategory, operations_onOperations,
    Document.components?_onCategory_of_ne hkinds, Document.components?_onCategory_self,
    Document.components?_onCategory_self, Document.components?_onCategory_of_ne hkinds.symm,
    components?_onOperations, components?_onOperations, ofValues_mapValues,
    ofValues_mapValues, List.map_append, List.map_append, List.flatMap_map, List.map_flatMap]
  simp only [ofOperation_onOperation]

theorem still_onOperation {operation : Node}
    (h : ∀ body ∈ ofOperation operation, Change.Still (change body.1) body.2) :
    Change.Still (onOperation change) operation := by
  apply Change.still_andThen
  · apply Change.still_atField
    intro body hbody
    exact h (.request, body) (mem_ofOperation.2 (.inl ⟨rfl, hbody⟩))
  · apply Change.still_atField
    intro responses hresponses
    apply Change.still_inMapping
    intro entries hentries
    subst hentries
    apply Change.still_onValues
    intro entry hmem
    have hbody : (Kind.response, entry.2) ∈ ofOperation operation :=
      mem_ofOperation.2 (.inr ⟨entries, entry.1, hresponses, rfl, hmem⟩)
    exact h _ hbody

theorem still_onOperations {change : Change Node} {doc : Document}
    (h : ∀ operation ∈ doc.operations, Change.Still change operation.2.2) :
    Change.Still (onOperations change) doc.root := by
  apply Change.still_atField
  intro paths hpaths
  apply Change.still_inMapping
  intro routes hroutes
  subst hroutes
  apply Change.still_onValues
  intro route hroute
  apply Change.still_inMapping
  intro entries hentries
  apply Change.still_onValues
  intro entry hentry
  obtain ⟨path, item⟩ := route
  obtain rfl : item = .mapping entries := hentries
  split
  next hmethod =>
    obtain ⟨method, hkey⟩ := Option.isSome_iff_exists.1 hmethod
    have hmem : (path, method, entry.2) ∈ doc.operations :=
      mem_operations.2 ⟨routes, entries, entry.1, hpaths, hroute, hentry, hkey⟩
    exact h _ hmem
  next => rfl

theorem still_onCategory {kind : ComponentKind} {change : Change Node} {doc : Document}
    (h : ∀ entry ∈ (doc.components? kind).getD [], Change.Still change entry.2) :
    Change.Still (onCategory kind change) doc.root := by
  apply Change.still_atField
  intro region hregion
  apply Change.still_atField
  intro category hcategory
  apply Change.still_inMapping
  intro entries hentries
  subst hentries
  apply Change.still_onValues
  intro entry hmem
  apply h
  rw [Document.components?_eq, hregion, Option.bind_some, hcategory]
  exact hmem

/-- A change that finds nothing to do in the bodies finds nothing to do in the document. -/
theorem still_onAll {doc : Document}
    (h : ∀ body ∈ all doc, Change.Still (change body.1) body.2) :
    Change.Still (onAll change) doc.root := by
  apply Change.still_andThen
  · apply still_onOperations
    intro operation hmem
    apply still_onOperation
    intro body hbody
    exact h body (List.mem_append_left _ (List.mem_flatMap.2 ⟨operation, hmem, hbody⟩))
  · apply Change.still_andThen
    · apply still_onCategory
      intro entry hmem
      have hbody := List.mem_map_of_mem (f := fun entry => (Kind.request, entry.2)) hmem
      exact h _ (List.mem_append_right _ (List.mem_append_left _ hbody))
    · apply still_onCategory
      intro entry hmem
      have hbody := List.mem_map_of_mem (f := fun entry => (Kind.response, entry.2)) hmem
      exact h _ (List.mem_append_right _ (List.mem_append_right _ hbody))

theorem honest_onAll (h : ∀ kind, Change.Honest (change kind)) : Change.Honest (onAll change) := by
  have hoperation : Change.Honest (onOperation change) := by
    apply Change.Honest.andThen
    · exact (h .request).atField _
    · exact (Change.honest_onValues fun _ => h .response).inMapping.atField _
  have hitem : Change.Honest (Change.inMapping <| Change.onValues fun key =>
      if (HttpMethod.ofKey? key).isSome then onOperation change else Change.keep) := by
    apply Change.Honest.inMapping
    apply Change.honest_onValues
    intro key
    split
    · exact hoperation
    · exact Change.honest_keep
  have hcategory : ∀ (kind : ComponentKind) (body : Kind),
      Change.Honest (onCategory kind (change body)) := fun kind body =>
    ((Change.honest_onValues fun _ => h body).inMapping.atField kind.key).atField _
  apply Change.Honest.andThen
  · exact (Change.honest_onValues fun _ => hitem).inMapping.atField _
  · exact (hcategory .requestBodies .request).andThen (hcategory .responses .response)

end ApiTidy.Bodies
