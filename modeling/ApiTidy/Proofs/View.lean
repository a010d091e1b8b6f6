import ApiTidy.Proofs.Address.Way
import ApiTidy.Proofs.Except
import ApiTidy.Proofs.FailedExtraction

/-!
The typed view of a document beside its addresses. Routes, names, methods and categories are keys, so
the view finds what a lookup finds wherever there is a mapping to look into: only a sequence can tell
a segment from a key, and neither a method nor a category is an index. A component is stored by the
same insertions as a write at its address makes.
-/
namespace ApiTidy

theorem Address.segments_parse {text : String} (h : text ≠ "") :
    (parse text).segments = (Text.pieces '.' text.toList).map String.ofList := by
  unfold parse
  split
  next hnil => exact absurd (String.toList_eq_nil_iff.1 hnil) h
  next => rfl

theorem Address.append_dot_ne_empty (front last : String) : front ++ "." ++ last ≠ "" := by
  intro heq
  have hlength := congrArg String.length heq
  simp at hlength

/-- A segment without a dot, after a dot, leads one step on. -/
theorem Address.segments_parse_append {front last : String} (hfront : front ≠ "")
    (h : '.' ∉ last.toList) :
    (parse (front ++ "." ++ last)).segments = (parse front).segments ++ [last] := by
  rw [segments_parse (append_dot_ne_empty front last), segments_parse hfront]
  simp [Text.pieces_append h]

namespace Node
variable {address key : String} {rest : List String}

/-- A lookup goes on from the value under a key, for a segment that is no index. -/
theorem toOption_follow_cons (h : Address.index? key = none) (node : Node) :
    (follow address (key :: rest) node).toOption =
      (node.field? key).bind fun child => (follow address rest child).toOption := by
  cases node with
  | scalar value => rfl
  | sequence items => simp [follow, step, Address.place, h, field?, Except.toOption]
  | mapping entries =>
    cases hget : Entries.get? entries key with
    | none => simp [follow, step, hget, field?, Except.toOption]
    | some child => simp [follow, step, hget, field?]

theorem toOption_follow_key (h : Address.index? key = none) (address : String) (node : Node) :
    (follow address [key] node).toOption = node.field? key := by
  rw [toOption_follow_cons h]
  exact Option.bind_fun_some _

theorem toOption_follow_mapping (address key : String) (entries : Entries Node) :
    (follow address [key] (.mapping entries)).toOption = Entries.get? entries key := by
  cases hget : Entries.get? entries key with
  | none => simp [follow, step, hget, Except.toOption]
  | some child => simp [follow, step, hget, Except.toOption]

/-- The address is only for the error: what is found does not depend on it. -/
theorem toOption_follow_address (address other : String) (segments : List String) (node : Node) :
    (follow address segments node).toOption = (follow other segments node).toOption := by
  apply Option.ext
  intro found
  rw [Except.toOption_eq_some, Except.toOption_eq_some, follow_eq_ok, follow_eq_ok]

/-- A lookup along segments of two parts goes on from where the first part leads. -/
theorem toOption_follow_append (address : String) (front later : List String) (node : Node) :
    (follow address (front ++ later) node).toOption =
      (follow address front node).toOption.bind fun child =>
        (follow address later child).toOption := by
  induction front generalizing node with
  | nil => rfl
  | cons segment rest ih =>
    rw [List.cons_append, follow, follow]
    cases node.step address segment with
    | error fault => rfl
    | ok child => exact ih child

end Node

theorem ComponentKind.dot_notMem_key (kind : ComponentKind) : '.' ∉ kind.key.toList := by
  cases kind <;> decide

theorem ComponentKind.index?_key (kind : ComponentKind) : Address.index? kind.key = none := by
  cases kind <;> decide

theorem HttpMethod.dot_notMem_key (method : HttpMethod) : '.' ∉ method.key.toList := by
  cases method <;> decide

theorem HttpMethod.index?_key (method : HttpMethod) : Address.index? method.key = none := by
  cases method <;> decide

namespace Document
variable {doc : Document} {route name : String} {kind : ComponentKind}

/-- The address of the components of a category. -/
def categoryAddress (kind : ComponentKind) : String := componentsKey ++ "." ++ kind.key

/-- The address of a component whose name has no dot. -/
def componentAddress (reference : Reference) : String :=
  categoryAddress reference.kind ++ "." ++ reference.name

theorem segments_routeAddress (h : '.' ∉ route.toList) :
    (Address.parse (routeAddress route)).segments = [pathsKey, route] :=
  Address.segments_parse_append (by decide) h

theorem segments_endpointAddress (h : '.' ∉ route.toList) (method : HttpMethod) :
    (Address.parse (endpointAddress route method)).segments = [pathsKey, route, method.key] := by
  have hroute : routeAddress route ≠ "" := Address.append_dot_ne_empty pathsKey route
  rw [endpointAddress, Address.segments_parse_append hroute method.dot_notMem_key,
    segments_routeAddress h]
  rfl

theorem segments_categoryAddress (kind : ComponentKind) :
    (Address.parse (categoryAddress kind)).segments = [componentsKey, kind.key] :=
  Address.segments_parse_append (by decide) kind.dot_notMem_key

theorem segments_componentAddress {reference : Reference} (h : '.' ∉ reference.name.toList) :
    (Address.parse (componentAddress reference)).segments = componentKeys reference := by
  have hcategory : categoryAddress reference.kind ≠ "" := Address.append_dot_ne_empty _ _
  rw [componentAddress, Address.segments_parse_append hcategory h, segments_categoryAddress]
  rfl

/-- Whether a document has a mapping as its paths, if it has paths at all. -/
def PathsAreMapping (doc : Document) : Prop :=
  ∀ paths, doc.root.field? pathsKey = some paths → paths.isMapping = true

theorem pathItem?_eq_bind (doc : Document) (route : String) :
    doc.pathItem? route =
      ((doc.root.field? pathsKey).bind Node.entries?).bind (Entries.get? · route) := by
  rw [pathItem?, paths, region?]
  cases (doc.root.field? pathsKey).bind Node.entries? <;> rfl

/-- A path item is what a lookup finds below the paths. -/
theorem pathItem?_eq_toOption (h : doc.PathsAreMapping) (address route : String) :
    doc.pathItem? route = (Node.follow address [pathsKey, route] doc.root).toOption := by
  rw [pathItem?_eq_bind, Node.toOption_follow_cons (by decide), Option.bind_assoc]
  cases hfield : doc.root.field? pathsKey with
  | none => rfl
  | some paths =>
    have hpaths := h paths hfield
    cases paths with
    | scalar value => simp [Node.isMapping] at hpaths
    | sequence items => simp [Node.isMapping] at hpaths
    | mapping entries => exact (Node.toOption_follow_mapping address route entries).symm

theorem pathItem?_eq_lookup? (h : doc.PathsAreMapping) (hroute : '.' ∉ route.toList) :
    doc.pathItem? route = doc.root.lookup? (routeAddress route) := by
  rw [Node.lookup?, Node.lookup, segments_routeAddress hroute]
  exact pathItem?_eq_toOption h _ route

theorem endpoint?_eq_lookup? (h : doc.PathsAreMapping) (hroute : '.' ∉ route.toList)
    (method : HttpMethod) :
    doc.endpoint? route method = doc.root.lookup? (endpointAddress route method) := by
  have happend := Node.toOption_follow_append (endpointAddress route method) [pathsKey, route]
    [method.key] doc.root
  simp only [Node.toOption_follow_key method.index?_key] at happend
  rw [Node.lookup?, Node.lookup, segments_endpointAddress hroute, endpoint?,
    pathItem?_eq_toOption h (endpointAddress route method) route]
  exact happend.symm

theorem toOption_endpoint (doc : Document) (route : String) (method : HttpMethod) :
    (doc.endpoint route method).toOption = doc.endpoint? route method := by
  rw [endpoint, pathItem, endpoint?]
  cases hitem : doc.pathItem? route with
  | none => rfl
  | some item =>
    rw [Option.bind_some]
    cases hfield : item.field? method.key with
    | none => simp [Except.toOption, bind, Except.bind, hfield]
    | some operation => simp [Except.toOption, bind, Except.bind, hfield]

/-- The components of a category are the entries that a lookup of the category finds. -/
theorem components?_eq_lookup? (doc : Document) (kind : ComponentKind) :
    doc.components? kind = (doc.root.lookup? (categoryAddress kind)).bind Node.entries? := by
  rw [components?_eq, Node.lookup?, Node.lookup, segments_categoryAddress,
    Node.toOption_follow_cons (by decide)]
  simp only [Node.toOption_follow_key kind.index?_key]

/-- A lookup of a component goes on from its category. -/
theorem lookup?_componentAddress (hname : '.' ∉ name.toList) :
    doc.root.lookup? (componentAddress ⟨kind, name⟩) =
      (doc.root.lookup? (categoryAddress kind)).bind fun category =>
        (Node.follow (componentAddress ⟨kind, name⟩) [name] category).toOption := by
  rw [Node.lookup?, Node.lookup?, Node.lookup, Node.lookup, segments_componentAddress hname,
    segments_categoryAddress, Node.toOption_follow_address (categoryAddress kind)]
  exact Node.toOption_follow_append _ [componentsKey, kind.key] [name] doc.root

theorem component?_eq_lookup? {entries : Entries Node} (hname : '.' ∉ name.toList)
    (hcategory : doc.root.lookup? (categoryAddress kind) = some (.mapping entries)) :
    doc.component? kind name = doc.root.lookup? (componentAddress ⟨kind, name⟩) := by
  rw [component?, components?_eq_lookup?, lookup?_componentAddress hname, hcategory]
  exact (Node.toOption_follow_mapping _ name entries).symm

/-- A component is found at its address, for its category is a mapping. -/
theorem lookup?_of_component? {found : Node} (hname : '.' ∉ name.toList)
    (h : doc.component? kind name = some found) :
    doc.root.lookup? (componentAddress ⟨kind, name⟩) = some found := by
  obtain ⟨entries, hentries, -⟩ := Option.bind_eq_some_iff.1 h
  rw [components?_eq_lookup?, Node.bind_entries?_eq_some] at hentries
  rw [← component?_eq_lookup? hname hentries, h]

/-- Storing a component writes it at its address. -/
theorem set_of_setComponent {component : Node} {old : Option Node} {changed : Document}
    (hname : '.' ∉ name.toList) (h : setComponent kind name component doc = .ok old changed) :
    Node.set (componentAddress ⟨kind, name⟩) component doc.root = .ok () changed.root := by
  rw [Node.set, segments_componentAddress hname]
  exact place_of_setComponent _ h

/-- The typed view of a document shows what lookups find, and stores what writing would. -/
structure AgreesWithAddresses (doc : Document) (route : String) (method : HttpMethod)
    (kind : ComponentKind) (name : String) : Prop where
  pathItem : doc.pathItem? route = doc.root.lookup? (routeAddress route)
  endpoint : doc.endpoint? route method = doc.root.lookup? (endpointAddress route method)
  endpointFails : (∃ fault, doc.endpoint route method = .error fault) ↔
    ∃ fault, doc.root.lookup (endpointAddress route method) = .error fault
  component : ∀ found, doc.component? kind name = some found →
    doc.root.lookup? (componentAddress ⟨kind, name⟩) = some found
  namedComponent : ∀ entries,
    doc.root.lookup? (categoryAddress kind) = some (.mapping entries) →
      doc.component? kind name = doc.root.lookup? (componentAddress ⟨kind, name⟩)
  stored : ∀ component old changed, doc.setComponent kind name component = .ok old changed →
    Node.set (componentAddress ⟨kind, name⟩) component doc.root = .ok () changed.root
  notStored : ∀ component fault changed,
    doc.setComponent kind name component = .error fault changed → changed = doc

/-- The typed view and the addresses agree wherever no dot is in a route or a name. An item of a
list of components is at an address and no component; for the rest it does not matter what the
components are. -/
theorem agrees_with_addresses (hpaths : doc.PathsAreMapping) (hroute : '.' ∉ route.toList)
    (hname : '.' ∉ name.toList) (method : HttpMethod) (kind : ComponentKind) :
    doc.AgreesWithAddresses route method kind name := by
  constructor
  case pathItem => exact pathItem?_eq_lookup? hpaths hroute
  case endpoint => exact endpoint?_eq_lookup? hpaths hroute method
  case endpointFails =>
    rw [← Except.toOption_eq_none, ← Except.toOption_eq_none, toOption_endpoint,
      endpoint?_eq_lookup? hpaths hroute method, Node.lookup?]
  case component => exact fun found => lookup?_of_component? hname
  case namedComponent => exact fun entries => component?_eq_lookup? hname
  case stored => exact fun component old changed => set_of_setComponent hname
  case notStored => exact fun component fault changed h => setComponent_atomic kind name component h

/-- A description with a list where the schemas should be. -/
def listed : Document :=
  ⟨.mapping [("paths", .mapping [("", .mapping [("get", .null)])]),
    ("components", .mapping [("schemas", .sequence [.null])])]⟩

theorem agrees_with_addresses_listed :
    listed.PathsAreMapping ∧ listed.endpoint? "" .get = listed.root.lookup? "paths..get" ∧
      (∃ changed, listed.setComponent .parameters "0" .null = .ok none changed ∧
        Node.set "components.parameters.0" .null listed.root = .ok () changed.root) ∧
      (∃ fault changed, listed.setComponent .schemas "0" .null = .error fault changed ∧
        changed = listed) ∧
      listed.component? .schemas "0" = none ∧
      listed.root.lookup? "components.schemas.0" = some .null := by
  have hpaths : listed.PathsAreMapping := fun paths h => Option.some.inj h ▸ rfl
  have hparameters : listed.AgreesWithAddresses "" .get .parameters "0" :=
    agrees_with_addresses hpaths (by decide) (by decide) .get .parameters
  have hschemas : listed.AgreesWithAddresses "" .get .schemas "0" :=
    agrees_with_addresses hpaths (by decide) (by decide) .get .schemas
  exact ⟨hpaths, hparameters.endpoint, ⟨_, rfl, hparameters.stored .null _ _ rfl⟩,
    ⟨_, _, rfl, hschemas.notStored .null _ _ rfl⟩, rfl, rfl⟩

end Document
end ApiTidy
