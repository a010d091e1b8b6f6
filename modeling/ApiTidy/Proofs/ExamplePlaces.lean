import Mathlib.Data.List.Induction
import ApiTidy.Proofs.Address.Way
import ApiTidy.Proofs.Pipeline

/-!
Which examples are removed, told by the ways through a document. Whether a mapping is a name map
depends on the way to it alone. The entry of an example key in a mapping that is none goes, with
everything below it; what no such entry is passed on the way to stays where it is.
-/
namespace ApiTidy

/-- A node that is a mapping with some of its keys, in their order, or that keeps its kind, its
scalar and its length. -/
inductive Node.Thinned (kept : String → Bool) : Node → Node → Prop
  | scalar (value : Scalar) : Thinned kept (.scalar value) (.scalar value)
  | sequence {items others : List Node} :
      others.length = items.length → Thinned kept (.sequence items) (.sequence others)
  | mapping {entries others : Entries Node} :
      Entries.keys others = (Entries.keys entries).filter kept →
      Thinned kept (.mapping entries) (.mapping others)

namespace Examples
open Document
variable {region below front : List Step}

/-- The places from which on examples are searched: the paths, and each category of components. -/
inductive IsRegion : List Step → Prop
  | paths : IsRegion [.key pathsKey]
  | category (name : String) : IsRegion [.key componentsKey, .key name]

/-- The category of named examples, which is emptied as a whole. -/
def namedExamples : List Step := [.key componentsKey, .key ComponentKind.examples.key]

/-- Whether a mapping is a name map, by whether the node that it is an item or a value of is one. -/
def isNameMapAfter (named : Bool) : Step → Bool
  | .key key => namesBelow named key
  | .item _ => false

/-- Whether a mapping is a name map, by the way to it from its region, which is one if it is a
mapping. -/
def isNameMap (below : List Step) : Bool := below.foldl isNameMapAfter true

/-- Whether a way into a region passes the entry of an example key in a mapping that is no name map,
or ends there. -/
def LeadsToExample (below : List Step) : Prop :=
  ∃ front key back, below = front ++ .key key :: back ∧ isNameMap front = false ∧
    isExampleKey key = true

/-- The first tree is the second with its examples removed. -/
structure WithoutExamples (new old : Node) : Prop where
  /-- Only `paths` and `components` may change. -/
  outside : ∀ step rest, step ≠ .key pathsKey → step ≠ .key componentsKey →
    new.reach? (step :: rest) = old.reach? (step :: rest)
  top : Node.Grown [] old new
  /-- Examples are gone, with everything inside them. -/
  gone : ∀ region below, IsRegion region → region ≠ namedExamples → LeadsToExample below →
    new.reach? (region ++ below) = none
  /-- Everything else is there. Mappings that are no name maps have lost their example keys. -/
  kept : ∀ region below, IsRegion region → region ≠ namedExamples → ¬ LeadsToExample below →
    Option.Rel (Node.Thinned fun key => isNameMap below || !isExampleKey key)
      (old.reach? (region ++ below)) (new.reach? (region ++ below))
  /-- The named examples are empty, in their old place or in the last one. -/
  categories : ∀ categories, old.field? componentsKey = some (.mapping categories) →
    ∃ others, new.field? componentsKey = some (.mapping others) ∧ Entries.keys others =
      if ComponentKind.examples.key ∈ Entries.keys categories then Entries.keys categories
      else Entries.keys categories ++ [ComponentKind.examples.key]
  emptied : new.reach? namedExamples = some (.mapping []) ↔
    ∃ categories, old.field? componentsKey = some (.mapping categories)
  /-- Components that are no mapping stay as they are. -/
  shapeless : (∀ categories, old.field? componentsKey ≠ some (.mapping categories)) →
    new.field? componentsKey = old.field? componentsKey

theorem isNameMap_concat (front : List Step) (step : Step) :
    isNameMap (front ++ [step]) = isNameMapAfter (isNameMap front) step := by
  simp [isNameMap]

/-- A property that is itself called `properties` is a schema, and no name map. -/
example : isNameMap [.key "/pets", .key "properties", .key "properties"] = false := by decide

theorem not_leadsToExample_nil : ¬ LeadsToExample [] := by
  rintro ⟨front, key, back, heq, -⟩
  simp at heq

/-- A way leads to an example if it did so before, or does with its last step. -/
theorem leadsToExample_concat {step : Step} :
    LeadsToExample (front ++ [step]) ↔ LeadsToExample front ∨
      ∃ key, step = .key key ∧ isNameMap front = false ∧ isExampleKey key = true := by
  constructor
  · rintro ⟨before, key, back, heq, hnames, hexample⟩
    rcases List.eq_nil_or_concat back with rfl | ⟨between, last, rfl⟩
    · obtain ⟨rfl, hstep⟩ := List.append_inj' heq rfl
      exact .inr ⟨key, List.head_eq_of_cons_eq hstep, hnames, hexample⟩
    · rw [List.concat_eq_append, ← List.cons_append, ← List.append_assoc] at heq
      obtain ⟨rfl, -⟩ := List.append_inj' heq rfl
      exact .inl ⟨before, key, between, rfl, hnames, hexample⟩
  · rintro (⟨before, key, back, rfl, hnames, hexample⟩ | ⟨key, rfl, hnames, hexample⟩)
    · exact ⟨before, key, back ++ [step], by simp, hnames, hexample⟩
    · exact ⟨front, key, [], rfl, hnames, hexample⟩

theorem reach?_key_stripped (named : Bool) (key : String) (node : Node) :
    (stripped named node).reach? [.key key] =
      if isKept named key then (node.reach? [.key key]).map (stripped (namesBelow named key))
      else none := by
  cases node with
  | scalar value => simp
  | sequence items => simp
  | mapping entries =>
    rw [stripped_mapping]
    cases hkept : isKept named key <;> simp [Entries.get?_filter, hkept]

theorem reach?_item_stripped (named : Bool) (index : Nat) (node : Node) :
    (stripped named node).reach? [.item index] =
      (node.reach? [.item index]).map (stripped false) := by
  cases node <;> simp

/-- One more step leads to what is left of the node that it led to, if it does not lead to an
example. -/
theorem reach?_step_stripped (step : Step) (node : Node)
    (h : ∀ key, step = .key key → isNameMap front = false → isExampleKey key = false) :
    (stripped (isNameMap front) node).reach? [step] =
      (node.reach? [step]).map (stripped (isNameMap (front ++ [step]))) := by
  rw [isNameMap_concat]
  cases step with
  | item index => exact reach?_item_stripped _ index node
  | key key =>
    have hkept : isKept (isNameMap front) key = true := by
      cases hnames : isNameMap front with
      | true => rfl
      | false => rw [isKept, h key rfl hnames]; rfl
    rw [reach?_key_stripped, if_pos hkept]
    rfl

/-- A way to an example leads nowhere any more, and every other way to what is left of the node that
it led to. -/
theorem reach?_stripped (node : Node) (below : List Step) :
    (LeadsToExample below → (stripped true node).reach? below = none) ∧
      (¬ LeadsToExample below → (stripped true node).reach? below =
        (node.reach? below).map (stripped (isNameMap below))) := by
  induction below using List.reverseRecOn with
  | nil => exact ⟨fun h => absurd h not_leadsToExample_nil, fun _ => by simp [isNameMap]⟩
  | append_singleton front step ih =>
    rw [Node.reach?_append, Node.reach?_append, leadsToExample_concat]
    by_cases hfront : LeadsToExample front
    · rw [ih.1 hfront]
      exact ⟨fun _ => rfl, fun h => absurd (.inl hfront) h⟩
    · rw [ih.2 hfront]
      cases node.reach? front with
      | none => exact ⟨fun _ => rfl, fun _ => rfl⟩
      | some child =>
        constructor
        · rintro (h | ⟨key, rfl, hnames, hexample⟩)
          · exact absurd h hfront
          · have hgone : isKept (isNameMap front) key = false := by simp [isKept, hnames, hexample]
            show (stripped _ child).reach? [.key key] = none
            rw [reach?_key_stripped, hgone]
            rfl
        · intro h
          refine reach?_step_stripped step child fun key hstep hnames => ?_
          exact Bool.eq_false_iff.2 fun hexample => h (.inr ⟨key, hstep, hnames, hexample⟩)

theorem thinned_stripped (named : Bool) (node : Node) :
    node.Thinned (fun key => named || !isExampleKey key) (stripped named node) := by
  cases node with
  | scalar value =>
    rw [stripped_scalar]
    exact .scalar value
  | sequence items =>
    rw [stripped_sequence]
    exact .sequence (List.length_map _)
  | mapping entries =>
    rw [stripped_mapping]
    refine .mapping ?_
    rw [Entries.keys_mapValues, Entries.keys, Entries.keys, List.filter_map]
    rfl

theorem reach?_strippedRegions (h : IsRegion region) (root : Node) :
    (strippedRegions root).reach? region = (root.reach? region).map (stripped true) := by
  have hne : pathsKey ≠ componentsKey := by decide
  cases h with
  | paths =>
    simp only [strippedRegions, Node.reach?_key, Node.field?_modifyField_of_ne hne,
      Node.field?_modifyField_self, Node.bind_reach?_nil]
  | category name =>
    have hcategories : (strippedRegions root).field? componentsKey =
        (root.field? componentsKey).map
          (Node.onEntries (Entries.mapValues fun _ => stripped true)) := by
      rw [strippedRegions, Node.field?_modifyField_self, Node.field?_modifyField_of_ne hne.symm]
    rw [Node.reach?_key, Node.reach?_key, hcategories]
    cases root.field? componentsKey with
    | none => rfl
    | some categories =>
      cases categories with
      | scalar value => rfl
      | sequence items => rfl
      | mapping entries =>
        show (Entries.get? (Entries.mapValues _ entries) name).bind (Node.reach? []) =
          ((Entries.get? entries name).bind (Node.reach? [])).map (stripped true)
        rw [Node.bind_reach?_nil, Node.bind_reach?_nil, Entries.get?_mapValues]

theorem reach?_resetExamples (h : IsRegion region) (hne : region ≠ namedExamples) (root : Node) :
    (resetExamples root).reach? region = root.reach? region := by
  cases h with
  | paths =>
    have hkey : pathsKey ≠ componentsKey := by decide
    simp only [resetExamples, Node.reach?_key, Node.field?_modifyField_of_ne hkey]
  | category name =>
    have hname : name ≠ ComponentKind.examples.key := fun heq => hne (heq ▸ rfl)
    rw [Node.reach?_key, Node.reach?_key, resetExamples, Node.field?_modifyField_self]
    cases root.field? componentsKey with
    | none => rfl
    | some categories =>
      cases categories with
      | scalar value => rfl
      | sequence items => rfl
      | mapping entries =>
        show (Entries.get? (Entries.insert entries _ _) name).bind (Node.reach? []) =
          (Entries.get? entries name).bind (Node.reach? [])
        rw [Entries.get?_insert_of_ne hname]

theorem reach?_removed (h : IsRegion region) (hne : region ≠ namedExamples) (root : Node) :
    (resetExamples (strippedRegions root)).reach? (region ++ below) =
      (root.reach? region).bind fun top => (stripped true top).reach? below := by
  rw [Node.reach?_append, reach?_resetExamples h hne, reach?_strippedRegions h, Option.bind_map]
  rfl

theorem grown_removed (root : Node) : Node.Grown [] root (resetExamples (strippedRegions root)) := by
  cases root with
  | scalar value => exact .scalar value
  | sequence items => exact .sequence rfl
  | mapping entries => exact .mapping (by simp)

/-- What becomes of the components. -/
theorem field?_components_removed (root : Node) :
    (resetExamples (strippedRegions root)).field? componentsKey =
      (root.field? componentsKey).map (Node.onEntries fun categories =>
        Entries.insert (Entries.mapValues (fun _ => stripped true) categories)
          ComponentKind.examples.key (.mapping [])) := by
  have hne : componentsKey ≠ pathsKey := by decide
  simp only [resetExamples, strippedRegions, Node.field?_modifyField_self,
    Node.field?_modifyField_of_ne hne, Option.map_map]
  congr 1
  funext components
  cases components <;> rfl

theorem withoutExamples_removed (root : Node) :
    WithoutExamples (resetExamples (strippedRegions root)) root where
  outside step rest hpaths hcomponents := by
    simp only [resetExamples, strippedRegions, Node.reach?_modifyField_of_ne hcomponents,
      Node.reach?_modifyField_of_ne hpaths]
  top := grown_removed root
  gone region below hregion hne hexample := by
    rw [reach?_removed hregion hne]
    cases root.reach? region with
    | none => rfl
    | some top => exact (reach?_stripped top below).1 hexample
  kept region below hregion hne hexample := by
    rw [reach?_removed hregion hne, Node.reach?_append]
    cases root.reach? region with
    | none => exact .none
    | some top =>
      show Option.Rel _ (top.reach? below) ((stripped true top).reach? below)
      rw [(reach?_stripped top below).2 hexample]
      cases top.reach? below with
      | none => exact .none
      | some found => exact .some (thinned_stripped _ found)
  categories categories h := by
    rw [field?_components_removed, h]
    refine ⟨_, rfl, ?_⟩
    rw [Entries.keys_insert, Entries.keys_mapValues]
  emptied := by
    rw [namedExamples, Node.reach?_key, field?_components_removed]
    constructor
    · intro h
      obtain ⟨components, hcomponents, -⟩ := Option.bind_eq_some_iff.1 h
      obtain ⟨old, hold, rfl⟩ := Option.map_eq_some_iff.1 hcomponents
      rw [hold] at h ⊢
      cases old with
      | mapping categories => exact ⟨categories, rfl⟩
      | sequence items => simp at h
      | scalar value => simp at h
    · rintro ⟨categories, h⟩
      simp [h]
  shapeless h := by
    rw [field?_components_removed]
    cases hcomponents : root.field? componentsKey with
    | none => rfl
    | some components =>
      cases components with
      | mapping categories => exact absurd hcomponents (h categories)
      | sequence items => rfl
      | scalar value => rfl

/-- Removing examples never fails, and removes the entries of example keys below the paths and the
categories of components, except from name maps, and nothing else but the named examples. -/
theorem stripExamples_exact (doc : Document) : ∃ count changed,
    Pass.stripExamples.apply doc = .ok count changed ∧ WithoutExamples changed.root doc.root := by
  obtain ⟨count, hremoved⟩ := removeExamples_eq_ok doc
  exact ⟨count, _, hremoved, withoutExamples_removed doc.root⟩

end Examples
end ApiTidy
