import Mathlib.Data.Prod.Lex
import Mathlib.Data.String.Basic
import ApiTidy.Proofs.Components
import ApiTidy.Proofs.ReferencePlaces

/-!
The report of the dangling references. They come in the order of their categories and, in each, of
their names, each once however often it occurs. Those that are left out have a component of their
name.
-/
namespace ApiTidy

theorem ComponentKind.index_inj {a b : ComponentKind} (h : a.index = b.index) : a = b := by
  cases a <;> cases b <;> first | rfl | exact absurd h (by decide)

namespace Reference
variable {a b reference : Reference} {references : List Reference}

/-- What references are ordered by. -/
def rank (reference : Reference) : ℕ ×ₗ String := toLex (reference.kind.index, reference.name)

theorem rank_inj (h : a.rank = b.rank) : a = b := by
  obtain ⟨hindex, hname⟩ := Prod.mk.inj (toLex.injective h)
  have hkind := ComponentKind.index_inj hindex
  cases a
  cases b
  simp_all

theorem before_iff : a.before b ↔ a.rank < b.rank := by
  have hkind : a.kind = b.kind ↔ a.kind.index = b.kind.index :=
    ⟨congrArg _, ComponentKind.index_inj⟩
  simp [before, rank, Prod.Lex.toLex_lt_toLex, hkind]

theorem pairwise_insertOrdered (h : references.Pairwise (·.before ·)) :
    (insertOrdered reference references).Pairwise (·.before ·) := by
  induction references with
  | nil => exact List.pairwise_singleton _ _
  | cons first rest ih =>
    obtain ⟨hfirst, hrest⟩ := List.pairwise_cons.1 h
    unfold insertOrdered
    split
    next => exact h
    next hne =>
      split
      next hbefore =>
        refine List.pairwise_cons.2 ⟨fun other hother => ?_, h⟩
        rcases List.mem_cons.1 hother with rfl | hother
        · exact hbefore
        · exact before_iff.2 ((before_iff.1 hbefore).trans (before_iff.1 (hfirst other hother)))
      next hbefore =>
        rw [before_iff, not_lt] at hbefore
        have hafter : first.before reference :=
          before_iff.2 (hbefore.lt_of_ne fun heq => hne (rank_inj heq).symm)
        refine List.pairwise_cons.2 ⟨fun other hother => ?_, ih hrest⟩
        rcases mem_insertOrdered.1 hother with rfl | hother
        · exact hafter
        · exact hfirst other hother

theorem pairwise_ordered (references : List Reference) :
    (ordered references).Pairwise (·.before ·) := by
  unfold ordered
  induction references with
  | nil => exact .nil
  | cons first rest ih => exact pairwise_insertOrdered ih

theorem nodup_ordered (references : List Reference) : (ordered references).Nodup := by
  refine (pairwise_ordered references).imp fun {a b} hbefore heq => ?_
  exact lt_irrefl _ (before_iff.1 (heq ▸ hbefore))

/-- A node is a reference if it is a mapping with a pointer, whatever is beside it. -/
theorem ofNode?_eq_some {node : Node} : ofNode? node = some reference ↔ ∃ entries pointer,
    node = .mapping entries ∧ Entries.get? entries Node.refKey = some (.ofString pointer) ∧
      parse? pointer = some reference := by
  constructor
  · intro h
    obtain ⟨pointer, hpointer, hparse⟩ := Option.bind_eq_some_iff.1 h
    obtain ⟨value, hvalue, hstring⟩ := Option.bind_eq_some_iff.1 hpointer
    cases node with
    | scalar scalar => simp [Node.field?] at hvalue
    | sequence items => simp [Node.field?] at hvalue
    | mapping entries =>
      unfold Node.string? at hstring
      split at hstring
      next text =>
        obtain rfl := Option.some.inj hstring
        exact ⟨entries, text, rfl, hvalue, hparse⟩
      next => simp at hstring
  · rintro ⟨entries, pointer, rfl, hpointer, hparse⟩
    simp [ofNode?, Node.refPointer?, Node.field?, hpointer, Node.ofString, Node.string?, hparse]

end Reference

/-- A reference stands in a mapping whose `$ref` is its pointer, whatever is beside it. -/
theorem Node.refersAt_iff {node : Node} {way : List Step} {reference : Reference} :
    node.RefersAt way reference ↔ ∃ entries pointer, node.reach? way = some (.mapping entries) ∧
      Entries.get? entries Node.refKey = some (.ofString pointer) ∧
      Reference.parse? pointer = some reference := by
  constructor
  · intro h
    obtain ⟨found, hfound, hreference⟩ := Option.bind_eq_some_iff.1 h
    obtain ⟨entries, pointer, rfl, hpointer, hparse⟩ := Reference.ofNode?_eq_some.1 hreference
    exact ⟨entries, pointer, hfound, hpointer, hparse⟩
  · rintro ⟨entries, pointer, hfound, hpointer, hparse⟩
    exact Option.bind_eq_some_iff.2
      ⟨_, hfound, Reference.ofNode?_eq_some.2 ⟨entries, pointer, rfl, hpointer, hparse⟩⟩

namespace Document
variable {doc : Document} {reference : Reference}

/-- Whether the category of a reference is a mapping that has its name. -/
def Holds (doc : Document) (reference : Reference) : Prop :=
  ∃ named, doc.root.reach? [.key componentsKey, .key reference.kind.key] = some (.mapping named) ∧
    reference.name ∈ Entries.keys named

theorem components?_eq_reach? (doc : Document) (kind : ComponentKind) :
    doc.components? kind =
      (doc.root.reach? [.key componentsKey, .key kind.key]).bind Node.entries? := by
  have hlast : Node.reach? [.key kind.key] = (·.field? kind.key) := by
    funext node
    rw [Node.reach?_key]
    exact Option.bind_fun_some _
  rw [components?_eq, Node.reach?_key, hlast]

theorem target?_eq_none : doc.target? reference = none ↔ ¬ doc.Holds reference := by
  rw [target?, component?, Option.bind_eq_none_iff]
  simp only [components?_eq_reach?, Node.bind_entries?_eq_some, Entries.get?_eq_none_iff, Holds,
    not_exists, not_and]

/-- What the report of the dangling references is, and the list that it is made from. -/
structure ReportsDangling (doc : Document) : Prop where
  mem : ∀ reference, reference ∈ doc.danglingReferences ↔
    (∃ way entries pointer, doc.root.reach? way = some (.mapping entries) ∧
      Entries.get? entries Node.refKey = some (.ofString pointer) ∧
      Reference.parse? pointer = some reference) ∧ ¬ doc.Holds reference
  increasing : doc.danglingReferences.Pairwise (·.before ·)
  nodup : doc.danglingReferences.Nodup
  collected : ∃ places, Node.ListsReferences places doc.root

/-- A reference is reported if and only if some mapping of the tree has its pointer, whatever else the
mapping has, and there is no component of its name. The report is in order and without repetition. The
list that it is made from has each reference once for each way to it. -/
theorem reports_dangling_references (h : doc.root.WellFormed) : doc.ReportsDangling := by
  constructor
  case mem =>
    intro reference
    rw [mem_danglingReferences, target?_eq_none, references, Node.mem_references_iff_refersAt h]
    simp only [Node.refersAt_iff]
  case increasing => exact Reference.pairwise_ordered _
  case nodup => exact Reference.nodup_ordered _
  case collected => exact Node.exists_listsReferences h

/-- A description with two references to one schema that is missing, one of them beside another
entry, and with a reference into a schema that is there. -/
def pointing : Document :=
  ⟨.mapping [("list", .sequence [
      .mapping [("$ref", .ofString "#/components/schemas/a~1b"), ("x", .null)],
      .mapping [("$ref", .ofString "#/components/schemas/a~1b")],
      .mapping [("$ref", .ofString "#/components/schemas/P/x")]]),
    ("components", .mapping [("schemas", .mapping [("P", .null)])])]⟩

theorem reports_dangling_references_pointing :
    pointing.root.WellFormed ∧ pointing.references.length = 3 ∧
      ⟨.schemas, "a/b"⟩ ∈ pointing.danglingReferences ∧
      ⟨.schemas, "P"⟩ ∉ pointing.danglingReferences ∧
      pointing.danglingReferences.Pairwise (·.before ·) ∧ pointing.danglingReferences.Nodup := by
  have hform : pointing.root.WellFormed := by decide
  have hreports := reports_dangling_references hform
  have hmissing : ¬ pointing.Holds ⟨.schemas, "a/b"⟩ := target?_eq_none.1 rfl
  have hthere : pointing.Holds ⟨.schemas, "P"⟩ := ⟨_, rfl, by decide⟩
  refine ⟨hform, by decide, (hreports.mem _).2 ⟨⟨[.key "list", .item 0], ?_⟩, hmissing⟩,
    fun hdangling => ((hreports.mem _).1 hdangling).2 hthere, hreports.increasing, hreports.nodup⟩
  exact ⟨_, _, rfl, rfl, by decide⟩

end Document
end ApiTidy
