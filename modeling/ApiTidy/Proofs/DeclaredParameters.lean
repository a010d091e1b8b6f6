import ApiTidy.Proofs.Relocation

/-!
Parameters that relocated operations declare already. A relocation leaves the parameters of an
operation alone exactly if its own is among them, where parameters are compared as they are written.
So a parameter is recognised where it is inline on both sides or the same reference on both. A
reference is not resolved: beside the component that it names, it counts as another parameter.
-/
namespace ApiTidy
namespace Relocation
open Document
variable {relocation : Relocation} {route other last : String} {method : HttpMethod}
  {doc changed : Document} {operation : Entries Node} {parameters : List Node}
  {steps : List (Relocation × String)} {movers : List Relocation}

/-- The parameter that an entry of a list of parameters declares: what its reference names, if it is
a reference. -/
def resolved? (doc : Document) (entry : Node) : Option Node :=
  match entry.refPointer? with
  | none => some entry
  | some pointer =>
    match Reference.parse? pointer with
    | some ⟨.parameters, name⟩ => doc.component? .parameters name
    | _ => none

/-- Whether two entries declare parameters of the same name and location. -/
def SameResolved (doc : Document) (a b : Node) : Prop :=
  ∃ left right, resolved? doc a = some left ∧ resolved? doc b = some right ∧
    (left.field? "name").isSome ∧ sameField (left.field? "name") (right.field? "name") ∧
    sameField (left.field? "in") (right.field? "in")

/-- What declares the same parameter is recognised if it is inline on both sides, or the same
reference on both. -/
theorem sameParameter_of_resolved {a b : Node} (h : SameResolved doc a b)
    (hpointer : a.refPointer? = b.refPointer?) : sameParameter a b = true := by
  obtain ⟨left, right, hleft, hright, hname, hnames, hplaces⟩ := h
  unfold resolved? at hleft hright
  unfold sameParameter
  cases hb : b.refPointer? with
  | some pointer => simp [hpointer, hb]
  | none =>
    rw [hb] at hpointer
    simp only [hpointer, Option.some.injEq] at hleft
    simp only [hb, Option.some.injEq] at hright
    subst hleft hright
    simp [hpointer, hname, hnames, hplaces]

theorem completed_eq_self {parameter : Node}
    (h : ∃ entry ∈ parameters, sameParameter entry parameter = true) :
    completed parameter parameters = parameters :=
  if_pos (List.any_eq_true.2 h)

theorem completed_of_not {parameter : Node}
    (h : ¬ ∃ entry ∈ parameters, sameParameter entry parameter = true) :
    completed parameter parameters = parameters ++ [parameter] :=
  if_neg fun hany => h (List.any_eq_true.1 hany)

theorem prefix_completed (parameter : Node) (parameters : List Node) :
    parameters <+: completed parameter parameters := by
  unfold completed
  split
  · exact List.prefix_rfl
  · exact List.prefix_append _ _

/-- Parameters with those of some relocations, one after another. -/
def allCompleted (movers : List Relocation) (parameters : List Node) : List Node :=
  movers.foldl (fun parameters mover => completed mover.parameter parameters) parameters

theorem prefix_allCompleted (movers : List Relocation) (parameters : List Node) :
    parameters <+: allCompleted movers parameters := by
  induction movers generalizing parameters with
  | nil => exact List.prefix_rfl
  | cons mover rest ih => exact (prefix_completed mover.parameter parameters).trans (ih _)

/-- A list that only grows stays as it is exactly if no relocation adds its parameter. -/
theorem allCompleted_eq_self_iff : allCompleted movers parameters = parameters ↔
    ∀ mover ∈ movers, ∃ entry ∈ parameters, sameParameter entry mover.parameter = true := by
  induction movers with
  | nil => simp [allCompleted]
  | cons mover rest ih =>
    rw [List.forall_mem_cons, ← ih]
    show allCompleted rest (completed mover.parameter parameters) = parameters ↔ _
    by_cases hsame : ∃ entry ∈ parameters, sameParameter entry mover.parameter = true
    · rw [completed_eq_self hsame]
      exact (and_iff_right hsame).symm
    · rw [completed_of_not hsame]
      refine iff_of_false (fun heq => ?_) fun h => hsame h.1
      have hlength := (prefix_allCompleted rest (parameters ++ [mover.parameter])).length_le
      rw [heq, List.length_append, List.length_singleton] at hlength
      omega

theorem get?_withParameters (parameters : List Node) (operation : Entries Node) :
    Entries.get? (withParameters parameters operation) "parameters" = some (.sequence parameters) :=
  Entries.get?_insert_self ..

theorem ItemDeclared.field? {parameter item new value : Node} {key : String}
    (h : ItemDeclared parameter item new) (hvalue : item.field? key = some value) :
    ∃ declared, new.field? key = some declared ∧ Declared parameter key value declared := by
  obtain ⟨hentries⟩ := h
  exact Entries.get?_of_forall₂ hentries hvalue

theorem RouteMoved.distinct_paths (h : RouteMoved relocation route doc changed)
    (hpaths : Entries.Distinct doc.paths) : Entries.Distinct changed.paths := by
  obtain ⟨hrename, hitem, -⟩ := h
  have hmem := Entries.get?_isSome_iff.1 (Option.isSome_of_eq_some hitem)
  rw [paths_withPathItem hitem, Entries.Distinct, Entries.keys_insert_of_mem hmem]
  exact distinct_paths_renameRoute hpaths hrename

/-- An operation of the route that moves gets the parameter. -/
theorem RouteMoved.endpoint? (h : RouteMoved relocation route doc changed)
    (hpaths : Entries.Distinct doc.paths)
    (hoperation : doc.endpoint? route method = some (.mapping operation))
    (hown : Entries.get? operation "parameters" = some (.sequence parameters)) :
    changed.endpoint? (relocation.target route) method =
      some (.mapping (withParameters (completed relocation.parameter parameters) operation)) := by
  obtain ⟨hrename, hitem, hdeclared⟩ := h
  obtain ⟨found, hfound, hvalue⟩ := Option.bind_eq_some_iff.1 hoperation
  rw [pathItem?_renameRoute_self hpaths hrename, hfound] at hitem
  obtain rfl := Option.some.inj hitem
  obtain ⟨declared, hnew, hentry⟩ := hdeclared.field? hvalue
  have hbetween := (pathItem?_renameRoute_self hpaths hrename).trans hfound
  rw [Document.endpoint?, pathItem?, paths_withPathItem hbetween, Entries.get?_insert_self,
    Option.bind_some, hnew]
  cases hentry with
  | operation _ hparameters =>
    rw [ownParameters, hown, Option.getD_some] at hparameters
    obtain rfl := Node.sequence.inj hparameters
    rfl
  | other hother => exact (hother method operation (HttpMethod.ofKey?_key method) rfl).elim

/-- The operations of the other routes stay. -/
theorem RouteMoved.endpoint?_of_ne (h : RouteMoved relocation route doc changed)
    (hroute : other ≠ route) (htarget : other ≠ relocation.target route) :
    changed.endpoint? other method = doc.endpoint? other method := by
  obtain ⟨hrename, hitem, -⟩ := h
  rw [Document.endpoint?, Document.endpoint?, ← pathItem?_renameRoute_of_ne hrename hroute htarget,
    pathItem?, paths_withPathItem hitem, Entries.get?_insert_of_ne htarget]
  rfl

/-- Where a route comes to be in the end, and which relocations move it there. It is lost if another
route takes its name. -/
inductive Journey : List (Relocation × String) → String → List Relocation → String → Prop
  | done (route : String) : Journey [] route [] route
  | moved {relocation : Relocation} {route last : String} {rest : List (Relocation × String)}
      {movers : List Relocation} : Journey rest (relocation.target route) movers last →
      Journey ((relocation, route) :: rest) route (relocation :: movers) last
  | passed {relocation : Relocation} {source route last : String}
      {rest : List (Relocation × String)} {movers : List Relocation} :
      route ≠ source → route ≠ relocation.target source → Journey rest route movers last →
      Journey ((relocation, source) :: rest) route movers last

/-- At the end of its journey, an operation has the parameters of all relocations that moved it. -/
theorem Moved.endpoint? (hmoved : Moved steps doc changed)
    (hjourney : Journey steps route movers last) (hpaths : Entries.Distinct doc.paths)
    (hoperation : doc.endpoint? route method = some (.mapping operation))
    (hown : Entries.get? operation "parameters" = some (.sequence parameters)) :
    changed.endpoint? last method =
      some (.mapping (withParameters (allCompleted movers parameters) operation)) := by
  induction hjourney generalizing doc operation parameters with
  | done route =>
    cases hmoved
    rw [hoperation, withParameters, allCompleted, List.foldl_nil, Entries.insert_of_get? hown]
  | moved _ ih =>
    obtain _ | ⟨hstep, hrest⟩ := hmoved
    have hnext := ih hrest (hstep.distinct_paths hpaths) (hstep.endpoint? hpaths hoperation hown)
      (get?_withParameters _ _)
    rw [hnext]
    simp only [withParameters, Entries.insert_insert]
    rfl
  | passed hsource htarget _ ih =>
    obtain _ | ⟨hstep, hrest⟩ := hmoved
    exact ih hrest (hstep.distinct_paths hpaths)
      ((hstep.endpoint?_of_ne hsource htarget).trans hoperation) hown

/-- What relocating does to the parameters of an operation that is not lost on the way. -/
theorem relocatePaths_keeps_declared {relocations : List Relocation} {count : Nat}
    (hdoc : doc.root.WellFormed)
    (happly : (Pass.relocatePaths relocations).apply doc = .ok count changed)
    (hjourney : Journey (listed relocations) route movers last)
    (hoperation : doc.endpoint? route method = some (.mapping operation))
    (hown : Entries.get? operation "parameters" = some (.sequence parameters)) :
    (∃ final, changed.endpoint? last method = some (.mapping final) ∧
        Entries.get? final "parameters" = some (.sequence (allCompleted movers parameters)) ∧
        (final = operation ↔ ∀ mover ∈ movers, ∃ entry ∈ parameters,
          sameParameter entry mover.parameter = true)) ∧
      ((∀ mover ∈ movers, ∃ entry ∈ parameters, SameResolved doc entry mover.parameter ∧
          entry.refPointer? = mover.parameter.refPointer?) →
        changed.endpoint? last method = some (.mapping operation)) := by
  have happlied : applyAll relocations doc = .ok count changed := Edit.mapError_eq_ok.1 happly
  have hfinal := (applyAll_eq_ok.1 happlied).2.endpoint? hjourney (distinct_paths hdoc) hoperation
    hown
  have hunchanged : withParameters (allCompleted movers parameters) operation = operation ↔
      ∀ mover ∈ movers, ∃ entry ∈ parameters, sameParameter entry mover.parameter = true := by
    rw [← allCompleted_eq_self_iff]
    constructor
    · intro heq
      have hparameters := get?_withParameters (allCompleted movers parameters) operation
      rw [heq, hown] at hparameters
      exact (Node.sequence.inj (Option.some.inj hparameters)).symm
    · intro heq
      rw [heq, withParameters, Entries.insert_of_get? hown]
  refine ⟨⟨_, hfinal, get?_withParameters _ _, hunchanged⟩, fun hresolved => ?_⟩
  rw [hfinal, hunchanged.2]
  intro mover hmover
  obtain ⟨entry, hentry, hsame, hpointer⟩ := hresolved mover hmover
  exact ⟨entry, hentry, sameParameter_of_resolved hsame hpointer⟩

def tenant : Node := .mapping [("name", .ofString "tenant"), ("in", .ofString "query")]

def toTenant : Node := Reference.toNode ⟨.parameters, "tenant"⟩

def toCustomer : Node := Reference.toNode ⟨.parameters, "customer"⟩

/-- An operation that has one parameter already, and two components that are the same parameter. -/
def tenanted (entry : Node) : Document :=
  ⟨.mapping [
    ("paths", .mapping [("/a", .mapping [("get", .mapping [("parameters", .sequence [entry])])])]),
    ("components", .mapping [("parameters", .mapping [("tenant", tenant), ("customer", tenant)])])]⟩

/-- A relocation that moves the route twice, with a reference to the parameter. -/
def customized : Relocation := ⟨"/v2", ["/a", "/v2/a"], toTenant⟩

theorem relocatePaths_keeps_declared_tenant :
    (tenanted toTenant).root.WellFormed ∧
      ∃ changed, (Pass.relocatePaths [customized]).apply (tenanted toTenant) = .ok 2 changed ∧
        Journey (listed [customized]) "/a" [customized, customized] "/v2/v2/a" ∧
        changed.endpoint? "/v2/v2/a" .get =
          some (.mapping [("parameters", .sequence [toTenant])]) := by
  have hwell : (tenanted toTenant).root.WellFormed := by decide
  have happly : ∃ changed, (Pass.relocatePaths [customized]).apply (tenanted toTenant) =
      .ok 2 changed := ⟨_, rfl⟩
  obtain ⟨changed, hchanged⟩ := happly
  have hjourney : Journey (listed [customized]) "/a" [customized, customized] "/v2/v2/a" :=
    .moved (.moved (.done "/v2/v2/a"))
  have hoperation : (tenanted toTenant).endpoint? "/a" .get =
      some (.mapping [("parameters", .sequence [toTenant])]) := rfl
  obtain ⟨-, hkeeps⟩ := relocatePaths_keeps_declared hwell hchanged hjourney hoperation rfl
  refine ⟨hwell, changed, hchanged, hjourney, hkeeps fun mover hmover => ?_⟩
  obtain rfl : mover = customized := by simpa using hmover
  exact ⟨toTenant, List.mem_singleton_self toTenant, ⟨tenant, tenant, rfl, rfl, rfl, rfl, rfl⟩, rfl⟩

/-- Whether an operation that declares a parameter by an entry gets it once more by another. -/
def Repeated (entry parameter : Node) : Prop :=
  SameResolved (tenanted entry) entry parameter ∧
    ∃ changed, (Pass.relocatePaths [⟨"/v2", ["/a"], parameter⟩]).apply (tenanted entry) =
        .ok 1 changed ∧
      (tenanted entry).endpoint? "/a" .get = some (.mapping [("parameters", .sequence [entry])]) ∧
      changed.endpoint? "/v2/a" .get =
        some (.mapping [("parameters", .sequence [entry, parameter])])

/-- A reference and what it refers to are not recognised as one parameter, nor are two
references. -/
theorem not_all_declared_recognised :
    Repeated toTenant tenant ∧ Repeated tenant toTenant ∧ Repeated toCustomer toTenant := by
  refine ⟨⟨?_, _, rfl, rfl, rfl⟩, ⟨?_, _, rfl, rfl, rfl⟩, ⟨?_, _, rfl, rfl, rfl⟩⟩
  all_goals exact ⟨tenant, tenant, rfl, rfl, rfl, rfl, rfl⟩

end Relocation
end ApiTidy
