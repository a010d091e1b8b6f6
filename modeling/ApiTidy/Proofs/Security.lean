import ApiTidy.Proofs.ExamplePlaces

/-!
What is left of security requirements when examples are removed. The keys of a requirement are the
names of security schemes, but a requirement is no name map. So a scheme is taken out of the
requirements if it is called as an example is, and nothing else about them changes.
-/
namespace ApiTidy.Examples
open Document
variable {named : Bool} {region below : List Step}

/-- Whether an example is removed from a tree, at its top or anywhere inside. -/
inductive HoldsExample : Bool → Node → Prop
  | here {entries : Entries Node} {key : String} {value : Node} :
      (key, value) ∈ entries → isExampleKey key = true → HoldsExample false (.mapping entries)
  | item {named : Bool} {items : List Node} {item : Node} :
      item ∈ items → HoldsExample false item → HoldsExample named (.sequence items)
  | value {named : Bool} {entries : Entries Node} {key : String} {value : Node} :
      (key, value) ∈ entries → HoldsExample (namesBelow named key) value →
      HoldsExample named (.mapping entries)

/-- A requirement for one scheme: the list of its scopes. -/
def IsScopes (node : Node) : Prop := ∃ scopes : List Scalar, node = .sequence (scopes.map .scalar)

/-- The requirements of an operation before and after its examples are removed. -/
structure SecurityLeft (old new : Node) : Prop where
  /-- They are there or not as before. -/
  present : (new.field? "security").isSome = (old.field? "security").isSome
  /-- They are the same exactly if there is no example to find in them. -/
  same : new.field? "security" = old.field? "security" ↔
    ∀ security, old.field? "security" = some security → ¬ HoldsExample false security
  /-- A requirement loses the schemes that are called as examples are, and no others. -/
  requirements : ∀ requirements : List (Entries Node),
    old.field? "security" = some (.sequence (requirements.map .mapping)) →
    (∀ requirement ∈ requirements, ∀ scheme ∈ requirement, IsScopes scheme.2) →
    new.field? "security" = some (.sequence (requirements.map fun requirement =>
      .mapping (requirement.filter fun scheme => !isExampleKey scheme.1)))

theorem stripped_eq_self_iff {node : Node} :
    stripped named node = node ↔ ¬ HoldsExample named node := by
  induction node using Node.induct generalizing named with
  | scalar value =>
    simp only [stripped_scalar, true_iff]
    rintro ⟨⟩
  | sequence items ih =>
    rw [stripped_sequence, Node.sequence.injEq]
    constructor
    · rintro h (_ | ⟨hmem, hitem⟩)
      have hsame := List.map_inj_left.1 (h.trans (List.map_id items).symm) _ hmem
      exact (ih _ hmem).1 hsame hitem
    · intro h
      refine (List.map_congr_left fun item hmem => ?_).trans (List.map_id items)
      exact (ih item hmem).2 fun hitem => h (.item hmem hitem)
  | mapping entries ih =>
    rw [stripped_mapping, Node.mapping.injEq]
    constructor
    · intro h
      have hlength :
          (entries.filter fun entry => isKept named entry.1).length = entries.length := by
        simpa [Entries.mapValues] using congrArg List.length h
      have hkept := List.length_filter_eq_length_iff.1 hlength
      rw [List.filter_eq_self.2 hkept] at h
      have hvalues := Entries.mapValues_eq_self_iff.1 h
      -- An example would be dropped here, or change a value that stays the same.
      rintro (⟨hmem, hexample⟩ | _ | ⟨hmem, hvalue⟩)
      · simpa [isKept, hexample] using hkept _ hmem
      · exact (ih _ hmem).1 (hvalues _ hmem) hvalue
    · intro h
      have hkept : ∀ entry ∈ entries, isKept named entry.1 = true := by
        intro entry hmem
        cases named with
        | true => rfl
        | false =>
          rw [isKept, Bool.false_or, Bool.not_eq_true']
          exact Bool.eq_false_iff.2 fun hexample => h (.here hmem hexample)
      rw [List.filter_eq_self.2 hkept]
      refine Entries.mapValues_eq_self_iff.2 fun entry hmem => ?_
      exact (ih entry hmem).2 fun hvalue => h (.value hmem hvalue)

theorem stripped_scopes {node : Node} (h : IsScopes node) : stripped named node = node := by
  obtain ⟨scopes, rfl⟩ := h
  simp [Function.comp_def]

theorem field?_security_stripped (operation : Node) :
    (stripped false operation).field? "security" =
      (operation.field? "security").map (stripped false) := by
  have hkey := reach?_key_stripped false "security" operation
  have hkept : isKept false "security" = true := by decide
  have hbelow : namesBelow false "security" = false := by decide
  simpa only [hkept, hbelow, if_true, Node.reach?_key, Node.bind_reach?_nil] using hkey

theorem securityLeft_stripped (operation : Node) :
    SecurityLeft operation (stripped false operation) where
  present := by rw [field?_security_stripped, Option.isSome_map]
  same := by
    rw [field?_security_stripped]
    cases operation.field? "security" with
    | none => simp
    | some security => simp [stripped_eq_self_iff]
  requirements requirements h hscopes := by
    rw [field?_security_stripped, h, Option.map_some, stripped_sequence, List.map_map]
    refine congrArg (fun left => some (Node.sequence left)) (List.map_congr_left ?_)
    intro requirement hmem
    refine (stripped_mapping false requirement).trans (congrArg Node.mapping ?_)
    refine Entries.mapValues_eq_self_iff.2 fun scheme hscheme => stripped_scopes ?_
    exact hscopes requirement hmem scheme (List.mem_filter.1 hscheme).1

theorem isKept_method (method : HttpMethod) :
    isKept false method.key = true ∧ namesBelow false method.key = false := by
  cases method <;> decide

/-- No operation of a path item goes, as no method is called as an example is. -/
theorem itemOperations_stripped (route : String) (item : Node) :
    itemOperations route (stripped false item) = (itemOperations route item).map fun operation =>
      (operation.1, operation.2.1, stripped false operation.2.2) := by
  cases item with
  | scalar value => simp [itemOperations, Node.entries?]
  | sequence items => simp [itemOperations, Node.entries?]
  | mapping entries =>
    rw [stripped_mapping]
    simp only [itemOperations, Node.entries?, Option.getD_some]
    induction entries with
    | nil => rfl
    | cons entry rest ih =>
      obtain ⟨key, operation⟩ := entry
      cases hmethod : HttpMethod.ofKey? key with
      | none => cases hkept : isKept false key <;> simp [hmethod, hkept, ih]
      | some method =>
        obtain rfl := HttpMethod.key_of_ofKey? hmethod
        obtain ⟨hkept, hbelow⟩ := isKept_method method
        simp [hmethod, hkept, hbelow, ih]

theorem operations_removed (doc : Document) :
    operations ⟨resetExamples (strippedRegions doc.root)⟩ = doc.operations.map fun operation =>
      (operation.1, operation.2.1, stripped false operation.2.2) := by
  have hne : [Step.key pathsKey] ≠ namedExamples := by decide
  have hpaths : (resetExamples (strippedRegions doc.root)).field? pathsKey =
      (doc.root.field? pathsKey).map (stripped true) := by
    have hreach := (reach?_resetExamples .paths hne (strippedRegions doc.root)).trans
      (reach?_strippedRegions .paths doc.root)
    simpa only [Node.reach?_key, Node.bind_reach?_nil] using hreach
  unfold operations paths region?
  rw [hpaths]
  cases doc.root.field? pathsKey with
  | none => rfl
  | some paths =>
    cases paths with
    | scalar value => simp [Node.entries?]
    | sequence items => simp [Node.entries?]
    | mapping routes =>
      have hall : (routes.filter fun entry => isKept true entry.1) = routes :=
        List.filter_eq_self.2 fun _ _ => rfl
      simp only [Option.map_some, Option.bind_some, stripped_mapping, hall, Node.entries?,
        Option.getD_some, List.map_flatMap, ← itemOperations_stripped]
      exact List.flatMap_map _ _ _

/-- Removing examples leaves each operation its security requirements, but for the schemes that are
called as examples are. That holds for the operations of the routes and wherever else one may stand,
such as in a callback. -/
theorem stripExamples_security (doc : Document) : ∃ count changed,
    Pass.stripExamples.apply doc = .ok count changed ∧
    List.Forall₂ (fun old new => new.1 = old.1 ∧ new.2.1 = old.2.1 ∧ SecurityLeft old.2.2 new.2.2)
      doc.operations changed.operations ∧
    ∀ region below operation, IsRegion region → region ≠ namedExamples → ¬ LeadsToExample below →
      isNameMap below = false → doc.root.reach? (region ++ below) = some operation →
      ∃ left, changed.root.reach? (region ++ below) = some left ∧ SecurityLeft operation left := by
  obtain ⟨count, hremoved⟩ := removeExamples_eq_ok doc
  refine ⟨count, _, hremoved, ?_, ?_⟩
  · rw [operations_removed, List.forall₂_map_right_iff, List.forall₂_same]
    exact fun operation _ => ⟨rfl, rfl, securityLeft_stripped operation.2.2⟩
  · intro region below operation hregion hne hexample hnames hreach
    rw [Node.reach?_append] at hreach
    obtain ⟨top, htop, hbelow⟩ := Option.bind_eq_some_iff.1 hreach
    refine ⟨stripped false operation, ?_, securityLeft_stripped operation⟩
    rw [reach?_removed hregion hne, htop, Option.bind_some, (reach?_stripped top below).2 hexample,
      hbelow, hnames]
    rfl

/-- An operation that requires a scheme called `example`. -/
def exampleSecured : Document :=
  ⟨.mapping [("paths", .mapping [("/a", .mapping [("get", .mapping [("security",
    .sequence [.mapping [("example", .sequence [])]])])])])]⟩

/-- Not all requirements are kept: the only one of an operation may become empty, so that anyone may
call it. -/
theorem not_all_security_kept : ¬ ∀ doc count changed,
    Pass.stripExamples.apply doc = .ok count changed →
      changed.operations.map (·.2.2.field? "security") =
        doc.operations.map (·.2.2.field? "security") := by
  intro h
  obtain ⟨count, changed, happly, hnew⟩ : ∃ count changed,
      Pass.stripExamples.apply exampleSecured = .ok count changed ∧
        changed.operations.map (·.2.2.field? "security") = [some (.sequence [.mapping []])] :=
    ⟨_, _, rfl, rfl⟩
  have hold : exampleSecured.operations.map (·.2.2.field? "security") =
      [some (.sequence [.mapping [("example", .sequence [])]])] := rfl
  have hkept := h exampleSecured count changed happly
  rw [hnew, hold] at hkept
  simp at hkept

end ApiTidy.Examples
