import ApiTidy.Document.Edit
import ApiTidy.Proofs.Address.Place
import ApiTidy.Proofs.Components

/-!
Extracting a schema: the subtree becomes the component and a reference takes its place. The two
edits are of one tree, so the second can undo the first when the address leads to the component,
into it, or to what holds it; in all other cases both results stand.
-/
namespace ApiTidy.Document

theorem inOwnField_eq_ok {α : Type} {key address : String} {edit : Edit Failure (Entries Node) α}
    {entries changed : Entries Node} {answer : α}
    (h : inOwnField key address edit entries = .ok answer changed) :
    ∃ old new, (Entries.get? entries key).getD (.mapping []) = .mapping old ∧
      edit old = .ok answer new ∧ changed = Entries.insert entries key (.mapping new) := by
  unfold inOwnField at h
  split at h
  next old hold =>
    obtain ⟨new, hnew, rfl⟩ := Edit.onPart_eq_ok.1 h
    exact ⟨old, new, hold, hnew, rfl⟩
  next => simp at h

/-- A stored component is found under its name. -/
theorem component?_setComponent {doc changed : Document} {kind : ComponentKind} {name : String}
    {component : Node} {old : Option Node}
    (h : setComponent kind name component doc = .ok old changed) :
    changed.component? kind name = some component := by
  obtain ⟨root, hroot, rfl⟩ := onRoot_eq_ok.1 h
  split at hroot
  next entries _ =>
    obtain ⟨regions, hregions, rfl⟩ := Edit.onPart_eq_ok.1 hroot
    obtain ⟨_, categories, -, hcategories, rfl⟩ := inOwnField_eq_ok hregions
    obtain ⟨components, _, -, hcomponents, rfl⟩ := inOwnField_eq_ok hcategories
    rw [← (EStateM.Result.ok.inj hcomponents).2]
    simp [component?, components?, region?, Node.field?, Node.entries?]
  next => simp at hroot

/-- Whether one of an address and a component is, or holds, the other. -/
def Overlaps (address : String) (reference : Reference) : Prop :=
  (Address.parse address).segments <+: componentKeys reference ∨
    componentKeys reference <+: (Address.parse address).segments

instance (address : String) (reference : Reference) : Decidable (Overlaps address reference) :=
  inferInstanceAs (Decidable (_ ∨ _))

/-- Writing at an address changes no component that the address has nothing to do with. -/
theorem component?_set {doc : Document} {address : String} {value root : Node}
    {reference : Reference} (h : Node.set address value doc.root = .ok () root)
    (hapart : ¬ Overlaps address reference) :
    target? ⟨root⟩ reference = doc.target? reference := by
  rw [target?_eq_under?, target?_eq_under?]
  exact Node.under?_place h (fun hp => hapart (.inl hp)) (fun hp => hapart (.inr hp))

/-- The two ways in which an extraction succeeds: where the name is referred to already nothing
happens, elsewhere the schema is stored and then the reference to it is written. -/
theorem extractSchema_eq_ok {doc changed : Document} {name address : String}
    {reference : Reference} :
    doc.extractSchema name address = .ok reference changed ↔
      reference = ⟨.schemas, name⟩ ∧ ∃ subtree, doc.root.lookup address = .ok subtree ∧
        (Reference.ofNode? subtree = some ⟨.schemas, name⟩ ∧ changed = doc ∨
          Reference.ofNode? subtree ≠ some ⟨.schemas, name⟩ ∧ ∃ old stored,
            doc.setComponent .schemas name subtree = .ok old stored ∧
            Node.set address (Reference.mk .schemas name).toNode stored.root =
              .ok () changed.root) := by
  constructor
  · intro h
    simp only [extractSchema] at h
    split at h
    next => simp at h
    next subtree hsubtree =>
      split at h
      next hreferred =>
        obtain ⟨rfl, rfl⟩ := EStateM.Result.ok.inj h
        exact ⟨rfl, subtree, hsubtree, .inl ⟨hreferred, rfl⟩⟩
      next hreferred =>
        split at h
        next => simp at h
        next old stored hstored =>
          obtain ⟨_, between, hwrite, hpure⟩ := Edit.bind_eq_ok.1 h
          obtain ⟨rfl, rfl⟩ := Edit.pure_eq_ok.1 hpure
          obtain ⟨root, hroot, rfl⟩ := onRoot_eq_ok.1 hwrite
          exact ⟨rfl, subtree, hsubtree,
            .inr ⟨hreferred, old, stored, hstored, Edit.mapError_eq_ok.1 hroot⟩⟩
  · rintro ⟨rfl, subtree, hsubtree, ⟨hreferred, rfl⟩ | ⟨hreferred, old, stored, hstored, hset⟩⟩
    · simp only [extractSchema, hsubtree, if_pos hreferred]
    · have hwrite : onAddresses (Node.set address (Reference.mk .schemas name).toNode) stored =
          .ok () changed := onRoot_eq_ok.2 ⟨changed.root, Edit.mapError_eq_ok.2 hset, rfl⟩
      simp only [extractSchema, hsubtree, if_neg hreferred, hstored]
      exact Edit.bind_eq_ok.2 ⟨(), changed, hwrite, rfl⟩

/-- An extraction that succeeds where the name is referred to already changes nothing. Elsewhere it
leaves exactly the reference at the address, and the schema is the subtree that was there, unless
the address is above, at or below the schema itself. -/
theorem extractSchema_round_trip {doc changed : Document} {name address : String}
    {reference : Reference}
    (h : doc.extractSchema name address = .ok reference changed) :
    reference = ⟨.schemas, name⟩ ∧
    ∃ subtree, doc.root.lookup address = .ok subtree ∧
      (Reference.ofNode? subtree = some reference → changed = doc) ∧
      (Reference.ofNode? subtree ≠ some reference →
        changed.root.lookup address = .ok reference.toNode ∧
        (¬ Overlaps address reference → changed.component? .schemas name = some subtree)) := by
  simp only [extractSchema] at h
  split at h
  next => simp at h
  next subtree hsubtree =>
    split at h
    next hreferred =>
      obtain ⟨rfl, rfl⟩ := EStateM.Result.ok.inj h
      exact ⟨rfl, subtree, hsubtree, fun _ => rfl, fun hne => absurd hreferred hne⟩
    next hreferred =>
      split at h
      next => simp at h
      next old stored hstored =>
        obtain ⟨_, between, hset, hpure⟩ := Edit.bind_eq_ok.1 h
        obtain ⟨rfl, rfl⟩ := Edit.pure_eq_ok.1 hpure
        obtain ⟨root, hroot, rfl⟩ := onRoot_eq_ok.1 hset
        have hwritten := Edit.mapError_eq_ok.1 hroot
        refine ⟨rfl, subtree, hsubtree, fun heq => absurd heq hreferred, fun _ => ⟨?_, ?_⟩⟩
        · exact Node.lookup_set hwritten
        · intro hapart
          have hkept := component?_set hwritten hapart
          rw [target?, target?, component?_setComponent hstored] at hkept
          exact hkept

/-- A description with one path item. -/
def withItem (item : Node) : Document := ⟨.mapping [("paths", .mapping [("a", item)])]⟩

theorem extractSchema_round_trip_at_item :
    let reference : Reference := ⟨.schemas, "P"⟩
    let item : Node := .mapping [("type", .ofString "object")]
    let changed : Document := ⟨.mapping [("paths", .mapping [("a", reference.toNode)]),
      ("components", .mapping [("schemas", .mapping [("P", item)])])]⟩
    (withItem item).extractSchema "P" "paths.a" = .ok reference changed ∧
      Reference.ofNode? item ≠ some reference ∧ ¬ Overlaps "paths.a" reference ∧
      changed.root.lookup "paths.a" = .ok reference.toNode ∧
      changed.component? .schemas "P" = some item := by
  intro reference item changed
  have hextract : (withItem item).extractSchema "P" "paths.a" = .ok reference changed := rfl
  have hne : Reference.ofNode? item ≠ some reference := by decide
  have hapart : ¬ Overlaps "paths.a" reference := by decide
  obtain ⟨-, subtree, hsubtree, -, hstored⟩ := extractSchema_round_trip hextract
  obtain rfl : item = subtree := Except.ok.inj hsubtree
  exact ⟨hextract, hne, hapart, (hstored hne).1, (hstored hne).2 hapart⟩

/-- Whether an extraction stored the subtree and left the reference, or found just the reference. -/
def RoundTrips (doc changed : Document) (reference : Reference) (address : String) : Prop :=
  ∃ subtree, doc.root.lookup address = .ok subtree ∧
    (changed.target? reference = some subtree ∧
        changed.root.lookup address = .ok reference.toNode ∨
      subtree = reference.toNode ∧ changed = doc)

/-- Whether an extraction succeeds without a round trip. -/
def Strays (doc : Document) (name address : String) : Prop :=
  ∃ reference changed, doc.extractSchema name address = .ok reference changed ∧
    ¬ RoundTrips doc changed reference address

theorem strays_of_target?_ne {doc changed : Document} {name address : String}
    {reference : Reference} {subtree : Node}
    (h : doc.extractSchema name address = .ok reference changed)
    (hsubtree : doc.root.lookup address = .ok subtree)
    (htarget : changed.target? reference ≠ some subtree) (hne : subtree ≠ reference.toNode) :
    doc.Strays name address := by
  refine ⟨reference, changed, h, ?_⟩
  rintro ⟨found, hfound, hcase⟩
  obtain rfl : subtree = found := Except.ok.inj (hsubtree.symm.trans hfound)
  rcases hcase with ⟨hstored, -⟩ | ⟨hreference, -⟩
  · exact htarget hstored
  · exact hne hreference

/-- A description with a schema that holds another one. -/
def storing : Document :=
  ⟨.mapping [("components", .mapping [("schemas", .mapping [("P", .mapping
    [("x", .mapping [("y", .null)])])])])]⟩

/-- Not every extraction that succeeds is of that kind: a reference to the name with another field
beside it stays, and so does one into the schema. What is extracted from the root is lost, a schema
extracted from its own place refers to itself, and one extracted from inside it is changed. -/
theorem not_all_extractions_round_trip :
    Strays (withItem (.mapping [("$ref", .ofString "#/components/schemas/P"), ("x", .null)]))
        "P" "paths.a" ∧
      Strays (withItem (.mapping [("$ref", .ofString "#/components/schemas/P/x")]))
        "P" "paths.a" ∧
      Strays (withItem .null) "P" "" ∧
      Strays storing "P" "components.schemas.P" ∧
      Strays storing "P" "components.schemas.P.x" := by
  refine ⟨strays_of_target?_ne rfl rfl ?_ ?_, strays_of_target?_ne rfl rfl ?_ ?_,
    strays_of_target?_ne rfl rfl ?_ ?_, strays_of_target?_ne rfl rfl ?_ ?_,
    strays_of_target?_ne rfl rfl ?_ ?_⟩ <;> intro heq
  · cases heq
  · cases heq
  · cases heq
  · exact absurd (congrArg Node.refPointer? heq) (by decide)
  · cases heq
  · exact absurd (congrArg Node.refPointer? heq) (by decide)
  · exact absurd (congrArg (Option.map Node.refPointer?) heq) (by decide)
  · exact absurd (congrArg Node.refPointer? heq) (by decide)
  · cases heq
  · exact absurd (congrArg Node.refPointer? heq) (by decide)

end ApiTidy.Document
