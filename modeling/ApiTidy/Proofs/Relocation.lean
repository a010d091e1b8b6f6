import ApiTidy.Proofs.Regions
import ApiTidy.Proofs.Renaming

/-!
Moving routes. One after another the listed routes get their new names, and below each the
operations get the parameter of the relocation after their own ones, unless it is among them. Routes
that are neither listed nor take the name of one stay as they are, and so does everything but the
routes.
-/
namespace ApiTidy

namespace Document
variable {doc changed : Document} {route : String} {item : Node}

/-- The document with another item for a route. -/
def withPathItem (route : String) (item : Node) (doc : Document) : Document :=
  ⟨doc.root.modifyField (fun _ => .mapping (Entries.insert doc.paths route item)) pathsKey⟩

theorem region?_of_pathItem? (h : doc.pathItem? route = some item) :
    doc.region? pathsKey = some doc.paths := by
  rw [pathItem?, paths] at h
  rw [paths]
  cases hregion : doc.region? pathsKey with
  | none => simp [hregion] at h
  | some entries => rfl

theorem paths_withPathItem (h : doc.pathItem? route = some item) (new : Node) :
    (doc.withPathItem route new).paths = Entries.insert doc.paths route new :=
  paths_modifyField (region?_of_pathItem? h) _

/-- An edit of the item of a route, which must be there. -/
theorem editPathItem_eq_ok {α : Type} {edit : Edit AddressError Node α} {answer : α} :
    editPathItem route edit doc = .ok answer changed ↔
      ∃ item new, doc.pathItem? route = some item ∧ edit item = .ok answer new ∧
        changed = doc.withPathItem route new := by
  constructor
  · intro h
    obtain ⟨root, hroot, rfl⟩ := onRoot_eq_ok.1 h
    obtain ⟨entries, inner, hregion, hedit, rfl⟩ := inField_throw_eq_ok.1 hroot
    obtain rfl : doc.paths = entries := by rw [paths, region?, hregion]; rfl
    split at hedit
    next item hitem =>
      obtain ⟨new, hnew, rfl⟩ := Edit.onPart_eq_ok.1 hedit
      exact ⟨item, new, hitem, hnew, rfl⟩
    next => simp at hedit
  · rintro ⟨item, new, hitem, hedit, rfl⟩
    have hfound : Entries.get? doc.paths route = some item := hitem
    refine onRoot_eq_ok.2 ⟨_, inField_throw_eq_ok.2 ⟨doc.paths, _, region?_of_pathItem? hitem, ?_,
      rfl⟩, rfl⟩
    simp only [hfound, Edit.onPart, hedit]

end Document

namespace Relocation
open Document
variable {parameter : Node} {route : String} {relocation : Relocation} {doc changed : Document}
  {steps : List (Relocation × String)}

/-- Parameters with one more after them, unless it is among them. -/
def completed (parameter : Node) (parameters : List Node) : List Node :=
  if parameters.any (sameParameter · parameter) then parameters else parameters ++ [parameter]

/-- The operation with these parameters for its own. -/
def withParameters (parameters : List Node) (operation : Entries Node) : Entries Node :=
  Entries.insert operation "parameters" (.sequence parameters)

/-- Putting the parameters where they are already changes nothing, if there are any. -/
theorem withParameters_own {parameters : List Node} {operation : Entries Node}
    (h : ownParameters operation = .sequence parameters) (hne : parameters ≠ []) :
    withParameters parameters operation = operation := by
  rw [ownParameters] at h
  cases hget : Entries.get? operation "parameters" with
  | none =>
    rw [hget, Option.getD_none] at h
    exact absurd (Node.sequence.inj h).symm hne
  | some own =>
    rw [hget, Option.getD_some] at h
    exact Entries.insert_of_get? (hget.trans (congrArg some h))

theorem exists_injectParameter_eq_ok {address : String} {operation new : Entries Node} :
    (∃ count, injectParameter parameter address operation = .ok count new) ↔
      ∃ parameters, ownParameters operation = .sequence parameters ∧
        new = withParameters (completed parameter parameters) operation := by
  unfold injectParameter
  cases hown : ownParameters operation with
  | scalar value => simp
  | mapping entries => simp
  | sequence parameters =>
    simp only [Node.sequence.injEq, exists_eq_left']
    cases hany : parameters.any (sameParameter · parameter) with
    | true =>
      have hne : parameters ≠ [] := by
        rintro rfl
        simp at hany
      rw [completed, if_pos hany, withParameters_own hown hne]
      exact Edit.exists_ok_eq_ok
    | false =>
      have hnone : ¬ parameters.any (sameParameter · parameter) = true := by simp [hany]
      rw [completed, if_neg hnone]
      exact Edit.exists_ok_eq_ok

/-- An entry of a path item before and after a parameter was declared. An operation has the
parameter among its own afterwards; anything else stays. -/
inductive Declared (parameter : Node) (key : String) : Node → Node → Prop
  | operation {method : HttpMethod} {operation : Entries Node} {parameters : List Node} :
      HttpMethod.ofKey? key = some method → ownParameters operation = .sequence parameters →
      Declared parameter key (.mapping operation)
        (.mapping (withParameters (completed parameter parameters) operation))
  | other {value : Node} :
      (∀ method operation, HttpMethod.ofKey? key = some method →
        value = .mapping operation → False) →
      Declared parameter key value value

/-- A path item before and after a parameter was declared in each of its operations. -/
inductive ItemDeclared (parameter : Node) : Node → Node → Prop
  | mapping {entries others : Entries Node} :
      List.Forall₂ (fun old new => new.1 = old.1 ∧ Declared parameter old.1 old.2 new.2)
        entries others →
      ItemDeclared parameter (.mapping entries) (.mapping others)

/-- The edit of one entry of a path item. -/
def injectIntoEntry (parameter : Node) (route key : String) : Edit AddressError Node Nat
  | .mapping operation =>
    match HttpMethod.ofKey? key with
    | some method =>
      Edit.onPart operation Node.mapping <|
        injectParameter parameter (endpointAddress route method ++ ".parameters")
    | none => .ok 0 (.mapping operation)
  | other => .ok 0 other

theorem exists_injectIntoEntry_eq_ok {key : String} {old new : Node} :
    (∃ count, injectIntoEntry parameter route key old = .ok count new) ↔
      Declared parameter key old new := by
  constructor
  · rintro ⟨count, h⟩
    cases old with
    | scalar value =>
      obtain rfl := Edit.exists_ok_eq_ok.1 ⟨count, h⟩
      exact .other fun _ _ _ hmapping => by simp at hmapping
    | sequence items =>
      obtain rfl := Edit.exists_ok_eq_ok.1 ⟨count, h⟩
      exact .other fun _ _ _ hmapping => by simp at hmapping
    | mapping operation =>
      simp only [injectIntoEntry] at h
      split at h
      next method hmethod =>
        obtain ⟨inner, hinner, rfl⟩ := Edit.onPart_eq_ok.1 h
        obtain ⟨parameters, hown, rfl⟩ := exists_injectParameter_eq_ok.1 ⟨count, hinner⟩
        exact .operation hmethod hown
      next hnone =>
        obtain rfl := Edit.exists_ok_eq_ok.1 ⟨count, h⟩
        exact .other fun _ _ hmethod _ => by simp [hnone] at hmethod
  · intro h
    cases h with
    | @operation method operation parameters hmethod hown =>
      let address := endpointAddress route method ++ ".parameters"
      obtain ⟨count, hcount⟩ : ∃ count, injectParameter parameter address operation = .ok count _ :=
        exists_injectParameter_eq_ok.2 ⟨parameters, hown, rfl⟩
      refine ⟨count, ?_⟩
      simp only [injectIntoEntry, hmethod]
      exact Edit.onPart_eq_ok.2 ⟨_, hcount, rfl⟩
    | other hother =>
      refine ⟨0, ?_⟩
      unfold injectIntoEntry
      split
      next operation =>
        split
        next method hmethod => exact (hother method operation hmethod rfl).elim
        next => rfl
      next => rfl

theorem injectIntoItem_mapping (parameter : Node) (route : String) (entries : Entries Node) :
    injectIntoItem parameter route (.mapping entries) =
      Edit.onPart entries Node.mapping (Edit.eachEntry (injectIntoEntry parameter route)) := by
  rw [injectIntoItem]
  congr
  funext key value
  unfold injectIntoEntry
  cases HttpMethod.ofKey? key <;> cases value <;> rfl

theorem exists_injectIntoItem_eq_ok {item new : Node} :
    (∃ count, injectIntoItem parameter route item = .ok count new) ↔
      ItemDeclared parameter item new := by
  constructor
  · rintro ⟨count, h⟩
    cases item with
    | scalar value => simp [injectIntoItem] at h
    | sequence items => simp [injectIntoItem] at h
    | mapping entries =>
      rw [injectIntoItem_mapping] at h
      obtain ⟨others, hothers, rfl⟩ := Edit.onPart_eq_ok.1 h
      have hentries := Edit.exists_eachEntry_eq_ok.1 ⟨count, hothers⟩
      exact .mapping (hentries.imp fun _ _ => And.imp_right exists_injectIntoEntry_eq_ok.1)
  · rintro ⟨hentries⟩
    obtain ⟨count, hcount⟩ : ∃ count, Edit.eachEntry (injectIntoEntry parameter route) _ =
        .ok count _ := Edit.exists_eachEntry_eq_ok.2 <|
      hentries.imp fun _ _ => And.imp_right exists_injectIntoEntry_eq_ok.2
    exact ⟨count, by rw [injectIntoItem_mapping, Edit.onPart, hcount]⟩

/-- What moving one route does: it gets its new name, and then its operations get the parameter. -/
inductive RouteMoved (relocation : Relocation) (route : String) (doc : Document) : Document → Prop
  | intro {between : Document} {item new : Node} :
      renameRoute route (relocation.target route) doc = .ok () between →
      between.pathItem? (relocation.target route) = some item →
      ItemDeclared relocation.parameter item new →
      RouteMoved relocation route doc (between.withPathItem (relocation.target route) new)

theorem moveRoute_eq_ok :
    moveRoute relocation route doc = .ok () changed ↔ RouteMoved relocation route doc changed := by
  constructor
  · intro h
    obtain ⟨_, between, hrename, hrest⟩ := Edit.bind_eq_ok.1 h
    obtain ⟨count, after, hedit, hpure⟩ := Edit.bind_eq_ok.1 hrest
    obtain ⟨-, rfl⟩ := Edit.pure_eq_ok.1 hpure
    obtain ⟨item, new, hitem, hnew, rfl⟩ := editPathItem_eq_ok.1 hedit
    exact .intro hrename hitem (exists_injectIntoItem_eq_ok.1 ⟨count, hnew⟩)
  · rintro ⟨hrename, hitem, hdeclared⟩
    obtain ⟨count, hnew⟩ : ∃ count,
        injectIntoItem relocation.parameter (relocation.target route) _ = .ok count _ :=
      exists_injectIntoItem_eq_ok.2 hdeclared
    have hedit := editPathItem_eq_ok.2 ⟨_, _, hitem, hnew, rfl⟩
    exact Edit.bind_eq_ok.2 ⟨(), _, hrename,
      Edit.bind_eq_ok.2 ⟨count, _, hedit, Edit.pure_eq_ok.2 ⟨rfl, rfl⟩⟩⟩

/-- What moving routes one after another does. -/
inductive Moved : List (Relocation × String) → Document → Document → Prop
  | nil (doc : Document) : Moved [] doc doc
  | cons {relocation : Relocation} {route : String} {rest : List (Relocation × String)}
      {doc between changed : Document} : RouteMoved relocation route doc between →
      Moved rest between changed → Moved ((relocation, route) :: rest) doc changed

theorem forM_moveRoute_eq_ok :
    (steps.forM fun (relocation, route) => moveRoute relocation route :
        Edit AddressError Document PUnit) doc = .ok ⟨⟩ changed ↔ Moved steps doc changed := by
  induction steps generalizing doc with
  | nil =>
    constructor
    · intro h
      obtain ⟨-, rfl⟩ := Edit.pure_eq_ok.1 h
      exact .nil doc
    · rintro ⟨⟩
      rfl
  | cons step rest ih =>
    constructor
    · intro h
      obtain ⟨_, between, hstep, hrest⟩ := Edit.bind_eq_ok.1 h
      exact .cons (moveRoute_eq_ok.1 hstep) (ih.1 hrest)
    · rintro ⟨⟩
      next hstep hrest =>
        exact Edit.bind_eq_ok.2 ⟨(), _, moveRoute_eq_ok.2 hstep, ih.2 hrest⟩

/-- The routes that relocations list, each with its relocation. -/
def listed (relocations : List Relocation) : List (Relocation × String) :=
  relocations.flatMap fun relocation => relocation.routes.map (relocation, ·)

theorem applyAll_eq_ok {relocations : List Relocation} {count : Nat} :
    applyAll relocations doc = .ok count changed ↔
      count = (listed relocations).length ∧ Moved (listed relocations) doc changed := by
  constructor
  · intro h
    obtain ⟨_, between, hsteps, hpure⟩ := Edit.bind_eq_ok.1 h
    obtain ⟨hcount, rfl⟩ := Edit.pure_eq_ok.1 hpure
    exact ⟨hcount.symm, forM_moveRoute_eq_ok.1 hsteps⟩
  · rintro ⟨rfl, hmoved⟩
    exact Edit.bind_eq_ok.2 ⟨(), changed, forM_moveRoute_eq_ok.2 hmoved, rfl⟩

/-- The routes of other names stay in order with their items. -/
theorem RouteMoved.filter_paths (h : RouteMoved relocation route doc changed) {p : String → Bool}
    (hroute : p route = false) (htarget : p (relocation.target route) = false) :
    changed.paths.filter (p ·.1) = doc.paths.filter (p ·.1) := by
  obtain ⟨hrename, hitem, -⟩ := h
  obtain ⟨before, _, after, hfound, -, -, hchanged⟩ := paths_renameRoute hrename
  rw [paths_withPathItem hitem, Entries.filter_insert p htarget, hchanged,
    Entries.filter_insertAt htarget, Entries.filter_erase htarget, hfound]
  simp [hroute]

theorem Moved.filter_paths (h : Moved steps doc changed) {p : String → Bool}
    (hsteps : ∀ step ∈ steps, p step.2 = false ∧ p (step.1.target step.2) = false) :
    changed.paths.filter (p ·.1) = doc.paths.filter (p ·.1) := by
  induction h with
  | nil => rfl
  | cons hstep _ ih =>
    obtain ⟨⟨hroute, htarget⟩, hrest⟩ := List.forall_mem_cons.1 hsteps
    rw [ih hrest, hstep.filter_paths hroute htarget]

/-- Whether a route is neither among those that are moved nor takes the name of one. -/
def bystander (steps : List (Relocation × String)) (route : String) : Bool :=
  steps.all fun (relocation, source) => route ≠ source && route ≠ relocation.target source

/-- Relocating moves the listed routes one after another, and counts them. All other routes stay in
order with their items, and so does everything but the routes. -/
theorem relocatePaths_moves_listed (relocations : List Relocation) (doc changed : Document)
    (count : Nat) :
    ((Pass.relocatePaths relocations).apply doc = .ok count changed ↔
        count = (listed relocations).length ∧ Moved (listed relocations) doc changed) ∧
      ((Pass.relocatePaths relocations).apply doc = .ok count changed →
        changed.root.mask [pathsKey] = doc.root.mask [pathsKey] ∧
          changed.paths.filter (bystander (listed relocations) ·.1) =
            doc.paths.filter (bystander (listed relocations) ·.1)) := by
  have hiff : (Pass.relocatePaths relocations).apply doc = .ok count changed ↔
      applyAll relocations doc = .ok count changed := Edit.mapError_eq_ok
  rw [hiff]
  refine ⟨applyAll_eq_ok, fun h => ⟨?_, ?_⟩⟩
  · have hkeeps := keeps_mask_applyAll (List.mem_singleton_self pathsKey) relocations doc
    rwa [Edit.after_of_eq_ok h] at hkeeps
  · refine (applyAll_eq_ok.1 h).2.filter_paths fun step hstep => ?_
    simp only [bystander, List.all_eq_false]
    exact ⟨⟨step, hstep, by simp⟩, ⟨step, hstep, by simp⟩⟩

/-- Two routes, of which the first has an operation. -/
def unversioned : Document :=
  ⟨.mapping [("info", .null), ("paths", .mapping [
    ("/a", .mapping [("summary", .null), ("get", .mapping [("parameters", .sequence [.null])])]),
    ("/b", .null)])]⟩

/-- The first route goes below a version, and from there below another one. -/
def versioning : Relocation :=
  ⟨"/v2/", ["/a", "/v2/a"], .mapping [("name", .ofString "tenant"), ("in", .ofString "query")]⟩

theorem relocatePaths_moves_listed_twice :
    ∃ changed, (Pass.relocatePaths [versioning]).apply unversioned = .ok 2 changed ∧
      Moved [(versioning, "/a"), (versioning, "/v2/a")] unversioned changed ∧
      changed.root.mask [pathsKey] = unversioned.root.mask [pathsKey] ∧
      changed.routes = ["/v2/v2/a", "/b"] ∧
      changed.endpoint? "/v2/v2/a" .get =
        some (.mapping [("parameters", .sequence [.null, versioning.parameter])]) := by
  have happly : ∃ changed, (Pass.relocatePaths [versioning]).apply unversioned = .ok 2 changed ∧
      changed.routes = ["/v2/v2/a", "/b"] ∧
      changed.endpoint? "/v2/v2/a" .get =
        some (.mapping [("parameters", .sequence [.null, versioning.parameter])]) :=
    ⟨_, rfl, by decide, rfl⟩
  obtain ⟨changed, hchanged, hroutes, hoperation⟩ := happly
  obtain ⟨hmoves, hkeeps⟩ := relocatePaths_moves_listed [versioning] unversioned changed 2
  exact ⟨changed, hchanged, (hmoves.1 hchanged).2, (hkeeps hchanged).1, hroutes, hoperation⟩

end Relocation
end ApiTidy
