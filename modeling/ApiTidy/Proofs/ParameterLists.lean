import ApiTidy.Proofs.Places
import ApiTidy.Proofs.Pipeline
import ApiTidy.Proofs.Sequencing

/-!
Stripping parameters is exact, and matchers may come in any order and in any number of passes. A
list of parameters stands in a path item or in one of its operations, so no list is inside another.
Each loses the entries that some matcher accepts, and nothing else in the document changes.
-/
namespace ApiTidy.Parameters
open Document Node
variable {matchers : List ParameterMatcher} {place : List Step → Prop} {way : List Step}

/-- Where the lists of parameters stand: in a path item, and in each of its operations. -/
inductive IsParameterList : List Step → Prop
  | item (route : String) : IsParameterList [.key pathsKey, .key route, .key key]
  | operation (route : String) (method : HttpMethod) :
      IsParameterList [.key pathsKey, .key route, .key method.key, .key key]

/-- A list without the entries that some matcher accepts. What is no list stays as it is. -/
def withoutAccepted (matchers : List ParameterMatcher) : Node → Node
  | .sequence items => .sequence (items.filter fun parameter => !matchers.any (·.accepts parameter))
  | other => other

/-- The places of the entries of a list that some matcher accepts. -/
def acceptedItems (matchers : List ParameterMatcher) (list : Node) : Set (List Step) :=
  {way | ∃ index parameter, list.items?.bind (·[index]?) = some parameter ∧
    matchers.any (·.accepts parameter) = true ∧ way = [.item index]}

theorem key_ne (method : HttpMethod) : key ≠ method.key := by
  cases method <;> decide

theorem isParameterList_item {route field : String} :
    IsParameterList (.key pathsKey :: .key route :: .key field :: way) ↔
      (field = key ∧ way = []) ∨
        ∃ method : HttpMethod, field = method.key ∧ way = [.key key] := by
  constructor
  · rintro (_ | ⟨-, method⟩)
    · exact .inl ⟨rfl, rfl⟩
    · exact .inr ⟨method, rfl, rfl⟩
  · rintro (⟨rfl, rfl⟩ | ⟨method, rfl, rfl⟩)
    · exact .item route
    · exact .operation route method

theorem stripList_append (first second : List ParameterMatcher) :
    stripList (first ++ second) = Change.andThen (stripList first) (stripList second) := by
  simp only [stripList, Change.andThen_inSequence, Change.andThen_keepItems, List.any_append,
    Bool.not_or]

theorem stripPathItem_append (first second : List ParameterMatcher) :
    stripPathItem (first ++ second) =
      Change.andThen (stripPathItem first) (stripPathItem second) := by
  unfold stripPathItem
  rw [Change.andThen_inMapping, Change.andThen_onValues, stripList_append]
  congr 2
  funext field
  split
  · rfl
  · split
    · exact (Change.andThen_atField key _ _).symm
    · exact (Change.keep_andThen Change.keep).symm

/-- Stripping by several matchers is stripping by the first of them, and then by the others. -/
theorem strip_append (first second : List ParameterMatcher) :
    strip (first ++ second) = Change.andThen (strip first) (strip second) := by
  unfold strip
  rw [Change.andThen_atField, Change.andThen_inMapping, Change.andThen_onValues,
    stripPathItem_append]

theorem strip_comm (first second : List ParameterMatcher) :
    strip (first ++ second) = strip (second ++ first) := by
  have hlist : stripList (first ++ second) = stripList (second ++ first) := by
    simp only [stripList, List.any_append, Bool.or_comm]
  unfold strip stripPathItem
  rw [hlist]

/-- The count is that of the accepted entries. -/
theorem encard_acceptedItems (matchers : List ParameterMatcher) (list : Node) :
    (acceptedItems matchers list).encard = (stripList matchers list).2 := by
  have hnone (h : list.items? = none) : acceptedItems matchers list = ∅ := by
    simp [acceptedItems, h]
  cases list with
  | scalar value =>
    rw [hnone rfl]
    exact Set.encard_empty
  | mapping entries =>
    rw [hnone rfl]
    exact Set.encard_empty
  | sequence items =>
    have hcount : (stripList matchers (.sequence items)).2 =
        items.countP fun parameter => matchers.any (·.accepts parameter) := by
      show (Change.keepItems (fun parameter => !matchers.any (·.accepts parameter)) items).2 = _
      simp only [Change.keepItems_snd, Bool.not_not]
    rw [hcount, ← encard_items]
    rfl

theorem stripList_fst (matchers : List ParameterMatcher) (list : Node) :
    (stripList matchers list).1 = withoutAccepted matchers list := by
  cases list <;> rfl

theorem madeAt_stripList (hplace : ∀ way, place way ↔ way = []) (list : Node) :
    Change.MadeAt place (withoutAccepted matchers) (acceptedItems matchers) list
      (stripList matchers list) :=
  Change.madeAt_top hplace (stripList_fst matchers list) (encard_acceptedItems matchers list)

theorem madeAt_stripPathItem (route : String) {item : Node} (h : item.WellFormed) :
    Change.MadeAt (fun rest => IsParameterList (.key pathsKey :: .key route :: rest))
      (withoutAccepted matchers) (acceptedItems matchers) item (stripPathItem matchers item) := by
  refine .onValues h (fun way hway => ?_) fun field value hvalue => ?_
  · cases hway <;> exact ⟨_, _, rfl⟩
  · -- A field is the list of the route, an operation with a list of its own, or neither.
    split
    next hfield =>
      subst hfield
      refine madeAt_stripList (fun way => isParameterList_item.trans ?_) value
      simp [key_ne]
    next hfield =>
      split
      next hmethod =>
        obtain ⟨method, hmethod⟩ := Option.isSome_iff_exists.1 hmethod
        have hplace (way : List Step) :
            IsParameterList (.key pathsKey :: .key route :: .key field :: way) ↔
              way = [.key key] := by
          have hsome : ∃ method : HttpMethod, field = method.key :=
            ⟨method, (HttpMethod.key_of_ofKey? hmethod).symm⟩
          simp [isParameterList_item, hfield, hsome]
        have hbelow (way : List Step) (hway : IsParameterList
            (.key pathsKey :: .key route :: .key field :: way)) : ∃ rest, way = .key key :: rest :=
          ⟨[], (hplace way).1 hway⟩
        refine .atField (h.field? hvalue) hbelow fun list _ => ?_
        exact madeAt_stripList (fun way => (hplace _).trans (by simp)) list
      next hmethod =>
        refine Change.madeAt_of_unreached fun way hway => ?_
        rcases isParameterList_item.1 hway with ⟨hkey, -⟩ | ⟨method, hkey, -⟩
        · exact absurd hkey hfield
        · rw [hkey, HttpMethod.ofKey?_key] at hmethod
          exact absurd rfl hmethod

theorem madeAt_strip {root : Node} (h : root.WellFormed) :
    Change.MadeAt IsParameterList (withoutAccepted matchers) (acceptedItems matchers) root
      (strip matchers root) := by
  refine .atField h (fun way hway => ?_) fun paths hpaths => ?_
  · cases hway <;> exact ⟨_, rfl⟩
  · refine .onValues (h.field? hpaths) (fun way hway => ?_) fun route item hitem => ?_
    · cases hway <;> exact ⟨_, _, rfl⟩
    · exact madeAt_stripPathItem route ((h.field? hpaths).field? hitem)

/-- Stripping by the matchers of two lists is stripping by those of one list and then by those of
the other, in either order, and counts what they count together. Each list of parameters loses what
some matcher accepts, and nothing else changes. -/
theorem stripParameters_exact_in_any_order (first second : List ParameterMatcher) (doc : Document)
    (h : doc.root.WellFormed) : ∃ count further between changed,
      (Pass.stripParameters first).apply doc = .ok count between ∧
      (Pass.stripParameters second).apply between = .ok further changed ∧
      (Pass.stripParameters (first ++ second)).apply doc = .ok (count + further) changed ∧
      (Pass.stripParameters (second ++ first)).apply doc = .ok (count + further) changed ∧
      Change.MadeAt IsParameterList (withoutAccepted (first ++ second))
        (acceptedItems (first ++ second)) doc.root (changed.root, count + further) := by
  let between := strip first doc.root
  let changed := strip second between.1
  have hboth : strip (first ++ second) doc.root = (changed.1, between.2 + changed.2) :=
    congrFun (strip_append first second) doc.root
  have hswapped : strip (second ++ first) doc.root = (changed.1, between.2 + changed.2) := by
    rw [← strip_comm, hboth]
  refine ⟨between.2, changed.2, ⟨between.1⟩, ⟨changed.1⟩, rfl, rfl, ?_, ?_, ?_⟩
  · rw [Pass.apply, changeRoot_eq_ok, hboth]
  · rw [Pass.apply, changeRoot_eq_ok, hswapped]
  · rw [← hboth]
    exact madeAt_strip h

def versionHeader : Node := .mapping [("name", .ofString "X-Version"), ("in", .ofString "header")]

def pageFilter : Node := .mapping [("name", .ofString "filter"), ("in", .ofString "query")]

/-- Lists of parameters for a route and for one of its operations, and one for no operation. -/
def versioned : Document :=
  ⟨.mapping [("paths", .mapping [("/a", .mapping [
    ("parameters", .sequence [versionHeader, pageFilter]),
    ("get", .mapping [("parameters", .sequence [(Reference.mk .parameters "Version").toNode])]),
    ("x-get", .mapping [("parameters", .sequence [versionHeader])])])])]⟩

def headers : ParameterMatcher where
  nameSuffix := some ""
  refSuffix := none
  location := some "header"

def versions : ParameterMatcher where
  nameSuffix := some "Version"
  refSuffix := some "Version"
  location := none

/-- Both matchers accept the header, and only one of them the reference to it. -/
theorem stripParameters_exact_of_versioned : versioned.root.WellFormed ∧ ∃ between changed,
    (Pass.stripParameters [headers]).apply versioned = .ok 1 between ∧
    (Pass.stripParameters [versions]).apply between = .ok 1 changed ∧
    (Pass.stripParameters [headers, versions]).apply versioned = .ok 2 changed ∧
    (Pass.stripParameters [versions, headers]).apply versioned = .ok 2 changed ∧
    Change.MadeAt IsParameterList (withoutAccepted [headers, versions])
      (acceptedItems [headers, versions]) versioned.root (changed.root, 2) := by
  have hroot : versioned.root.WellFormed := by decide
  obtain ⟨count, further, between, changed, hfirst, hsecond, hboth, hswapped, hmade⟩ :=
    stripParameters_exact_in_any_order [headers] [versions] versioned hroot
  obtain rfl : 1 = count := by
    have hcount : (strip [headers] versioned.root).2 = 1 := by decide
    exact hcount.symm.trans (EStateM.Result.ok.inj hfirst).1
  obtain rfl : 1 = further := by
    have hcount : (strip [headers, versions] versioned.root).2 = 2 := by decide
    have htotal : (strip [headers, versions] versioned.root).2 = 1 + further :=
      (EStateM.Result.ok.inj hboth).1
    omega
  exact ⟨hroot, between, changed, hfirst, hsecond, hboth, hswapped, hmade⟩

end ApiTidy.Parameters
