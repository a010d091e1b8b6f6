import ApiTidy.Proofs.Address.Place
import ApiTidy.Proofs.Duplicates
import ApiTidy.Proofs.Reachability
import ApiTidy.Proofs.ReferencePlaces

/-!
Which references go with repeated alternatives. Alternatives are compared by what they refer to, so
what stands beside the `$ref` of one that goes is lost with it. The reference that the alternative
itself is stays in the first one that refers to the same.
-/
namespace ApiTidy
open Alternatives

/-- Whether a step leads to a list of alternatives, should it lead to a sequence. -/
def Step.toAlternatives : Step → Bool
  | .key name => isAlternation name
  | .item _ => false

namespace Alternatives
variable {listed : Bool} {root node : Node} {way : List Step} {reference : Reference}

/-- Whether a sequence at the end of a way is a list of alternatives; at the top this is given. -/
def listedAt (listed : Bool) (way : List Step) : Bool :=
  way.foldl (fun _ step => step.toAlternatives) listed

/-- Whether a way leads to an alternative that repeats one before it. -/
def Repeated (listed : Bool) (root : Node) (way : List Step) : Prop :=
  ∃ front index items item, way = front ++ [.item index] ∧ listedAt listed front = true ∧
    root.reach? front = some (.sequence items) ∧ items[index]? = some item ∧
    repeats (items.take index) item = true

/-- Whether a way leads below no repeated alternative. -/
def Spared (listed : Bool) (root : Node) (way : List Step) : Prop :=
  ∀ front step rest, way = front ++ step :: rest → ¬ Repeated listed root front

theorem not_repeated_nil : ¬ Repeated listed root [] := by
  rintro ⟨front, index, items, item, hway, -⟩
  simp at hway

theorem spared_nil : Spared listed root [] := by
  intro front step rest hway
  simp at hway

theorem not_repeated_scalar (value : Scalar) : ¬ Repeated listed (.scalar value) way := by
  rintro ⟨front, index, items, item, -, -, hreach, -⟩
  cases front <;> simp at hreach

/-- The repeated alternatives of a mapping are in its values. -/
theorem Repeated.of_mapping {entries : Entries Node} (h : Repeated listed (.mapping entries) way) :
    ∃ name value rest, way = .key name :: rest ∧ Entries.get? entries name = some value ∧
      Repeated (isAlternation name) value rest := by
  obtain ⟨front, index, items, item, rfl, hlisted, hreach, hitem⟩ := h
  cases front with
  | nil => simp at hreach
  | cons step front =>
    cases step with
    | item place => simp at hreach
    | key name =>
      obtain ⟨value, hvalue, hbelow⟩ := Option.bind_eq_some_iff.1 hreach
      exact ⟨name, value, _, rfl, hvalue, front, index, items, item, rfl, hlisted, hbelow, hitem⟩

/-- Those of a sequence are its items, if it is a list of alternatives, or are in its items. -/
theorem Repeated.of_sequence {items : List Node} (h : Repeated listed (.sequence items) way) :
    ∃ index item rest, way = .item index :: rest ∧ items[index]? = some item ∧
      (rest = [] ∧ listed = true ∧ repeats (items.take index) item = true ∨
        Repeated false item rest) := by
  obtain ⟨front, index, others, item, rfl, hlisted, hreach, hitem, hrepeats⟩ := h
  cases front with
  | nil =>
    obtain rfl : items = others := by simpa using hreach
    exact ⟨index, item, [], rfl, hitem, .inl ⟨rfl, hlisted, hrepeats⟩⟩
  | cons step front =>
    cases step with
    | key name => simp at hreach
    | item place =>
      obtain ⟨child, hchild, hbelow⟩ := Option.bind_eq_some_iff.1 hreach
      exact ⟨place, child, _, rfl, hchild,
        .inr ⟨front, index, others, item, rfl, hlisted, hbelow, hitem, hrepeats⟩⟩

theorem repeated_item {items : List Node} {index : Nat} :
    Repeated listed (.sequence items) [.item index] ↔ listed = true ∧
      ∃ item, items[index]? = some item ∧ repeats (items.take index) item = true := by
  constructor
  · intro h
    obtain ⟨place, item, rest, hway, hitem, ⟨-, hlisted, hrepeats⟩ | hbelow⟩ := h.of_sequence
    · obtain ⟨rfl, -⟩ : index = place ∧ rest = [] := by simpa using hway
      exact ⟨hlisted, item, hitem, hrepeats⟩
    · obtain ⟨-, rfl⟩ : index = place ∧ rest = [] := by simpa using hway
      exact absurd hbelow not_repeated_nil
  · rintro ⟨hlisted, item, hitem, hrepeats⟩
    exact ⟨[], index, items, item, rfl, hlisted, Node.reach?_nil _, hitem, hrepeats⟩

theorem not_repeated_key (entries : Entries Node) (name : String) :
    ¬ Repeated listed (.mapping entries) [.key name] := by
  intro h
  obtain ⟨other, value, rest, hway, -, hbelow⟩ := h.of_mapping
  obtain ⟨-, rfl⟩ : name = other ∧ rest = [] := by simpa using hway
  exact not_repeated_nil hbelow

/-- Below the first step, what the top is does not matter. -/
theorem repeated_cons {step next : Step} {rest : List Step} {child : Node}
    (hchild : root.reach? [step] = some child) :
    Repeated listed root (step :: next :: rest) ↔
      Repeated step.toAlternatives child (next :: rest) := by
  constructor
  · rintro ⟨front, index, items, item, hway, hlisted, hreach, hitem⟩
    cases front with
    | nil => simp at hway
    | cons first front =>
      obtain ⟨rfl, hrest⟩ := List.cons.inj hway
      rw [Node.reach?_cons, hchild] at hreach
      exact ⟨front, index, items, item, hrest, hlisted, hreach, hitem⟩
  · rintro ⟨front, index, items, item, hway, hlisted, hreach, hitem⟩
    refine ⟨step :: front, index, items, item, congrArg (step :: ·) hway, hlisted, ?_, hitem⟩
    rw [Node.reach?_cons, hchild]
    exact hreach

theorem repeated_cons_of_child {step : Step} {rest : List Step} {child : Node}
    (hchild : root.reach? [step] = some child)
    (h : Repeated step.toAlternatives child rest) : Repeated listed root (step :: rest) := by
  cases rest with
  | nil => exact absurd h not_repeated_nil
  | cons next rest => exact (repeated_cons hchild).2 h

theorem spared_cons {step : Step} {rest : List Step} {child : Node}
    (hchild : root.reach? [step] = some child) :
    Spared listed root (step :: rest) ↔
      (rest ≠ [] → ¬ Repeated listed root [step]) ∧ Spared step.toAlternatives child rest := by
  constructor
  · intro h
    constructor
    · intro hrest
      obtain ⟨next, later, rfl⟩ := List.exists_cons_of_ne_nil hrest
      exact h [step] next later rfl
    · intro front next later hway hrepeated
      exact h (step :: front) next later (congrArg (step :: ·) hway)
        (repeated_cons_of_child hchild hrepeated)
  · rintro ⟨hfirst, hlater⟩ front next rest' hway
    cases front with
    | nil => exact not_repeated_nil
    | cons first front =>
      obtain ⟨rfl, hrest⟩ := List.cons.inj hway
      cases front with
      | nil => exact hfirst (hrest ▸ List.cons_ne_nil next rest')
      | cons second front =>
        rw [repeated_cons hchild]
        exact hlater _ next rest' hrest

/-- A way that leads below a repeated alternative does so below one that it reaches first. -/
theorem exists_spared_repeated (h : ¬ Spared listed root way) :
    ∃ front step rest, way = front ++ step :: rest ∧ Repeated listed root front ∧
      Spared listed root front := by
  induction hlength : way.length using Nat.strongRecOn generalizing way with
  | _ length ih =>
    simp only [Spared, not_forall, not_not] at h
    obtain ⟨front, step, rest, rfl, hrepeated⟩ := h
    by_cases hfront : Spared listed root front
    · exact ⟨front, step, rest, rfl, hrepeated, hfront⟩
    · have hshorter : front.length < length := by simp [← hlength]
      obtain ⟨first, next, later, rfl, hfirst, hspared⟩ := ih _ hshorter hfront rfl
      exact ⟨first, next, later ++ step :: rest, by simp, hfirst, hspared⟩

theorem mem_firstOfEach {items : List Node} {item : Node} :
    item ∈ firstOfEach items ↔
      ∃ index, items[index]? = some item ∧ repeats (items.take index) item = false := by
  simp only [firstOfEach, List.mem_map, List.mem_filter, Prod.exists, List.mem_zipIdx_iff_getElem?,
    Bool.not_eq_eq_eq_not, Bool.not_true]
  constructor
  · rintro ⟨found, index, ⟨hitem, hrepeats⟩, rfl⟩
    exact ⟨index, hitem, hrepeats⟩
  · rintro ⟨index, hitem, hrepeats⟩
    exact ⟨item, index, ⟨hitem, hrepeats⟩, rfl⟩

/-- The items that are left are those at places that are not repeated. -/
theorem mem_left_iff {items : List Node} {item : Node} :
    (item ∈ if listed then firstOfEach items else items) ↔
      ∃ index, items[index]? = some item ∧ ¬ Repeated listed (.sequence items) [.item index] := by
  have hrepeated {index : Nat} (hitem : items[index]? = some item) :
      Repeated listed (.sequence items) [.item index] ↔
        listed = true ∧ repeats (items.take index) item = true := by
    simp [repeated_item, hitem]
  constructor
  · intro hmem
    cases listed with
    | false =>
      obtain ⟨index, hitem⟩ := List.mem_iff_getElem?.1 hmem
      exact ⟨index, hitem, by simp [hrepeated hitem]⟩
    | true =>
      obtain ⟨index, hitem, hfirst⟩ := mem_firstOfEach.1 hmem
      exact ⟨index, hitem, by simp [hrepeated hitem, hfirst]⟩
  · rintro ⟨index, hitem, hnot⟩
    rw [hrepeated hitem] at hnot
    cases listed with
    | false => exact List.mem_of_getElem? hitem
    | true => exact mem_firstOfEach.2 ⟨index, hitem, by simpa using hnot⟩

/-- For each pointer of a list, an item with it is left. -/
theorem exists_mem_dropRepeated {seen : List String} {pointer : String} (hnew : pointer ∉ seen)
    {items : List Node} {item : Node} (hmem : item ∈ items)
    (hpointer : item.refPointer? = some pointer) :
    ∃ first ∈ dropRepeated seen items, first.refPointer? = some pointer := by
  induction items generalizing seen with
  | nil => simp at hmem
  | cons other rest ih =>
    rw [dropRepeated_cons]
    by_cases hother : other.refPointer? = some pointer
    · exact ⟨other, by simp [hother, hnew], hother⟩
    · have hrest : item ∈ rest := (List.mem_cons.1 hmem).resolve_left
        fun heq => hother (heq ▸ hpointer)
      split
      · exact ih hnew hrest
      · have hlater : pointer ∉ other.refPointer?.toList ++ seen := by simp [hother, hnew]
        obtain ⟨first, hfirst, hsame⟩ := ih hlater hrest
        exact ⟨first, List.mem_cons_of_mem _ hfirst, hsame⟩

/-- A reference is left exactly if a way that leads below no repeated alternative leads to it. -/
theorem mem_references_dedupeValue (key : String) (h : node.WellFormed) :
    reference ∈ (dedupeValue key node).references ↔
      ∃ way, node.RefersAt way reference ∧ Spared (isAlternation key) node way := by
  induction node using Node.induct generalizing key with
  | scalar value => simp [Node.references, Node.not_refersAt_scalar]
  | sequence items ih =>
    have hitems := Node.wellFormed_sequence.1 h
    have hplain : isAlternation "" = false := by decide
    -- the items are in no list of alternatives of their own
    have hbelow {item : Node} (hmem : item ∈ items) :
        reference ∈ (dedupeValue "" item).references ↔
          ∃ way, item.RefersAt way reference ∧ Spared false item way := by
      rw [ih item hmem "" (hitems item hmem), hplain]
    rw [dedupeValue_sequence, dropRepeated_nil, Node.mem_references_sequence]
    simp only [List.mem_map, exists_exists_and_eq_and]
    constructor
    · rintro ⟨item, hleft, href⟩
      obtain ⟨index, hindex, hnot⟩ := mem_left_iff.1 hleft
      obtain ⟨way, hway, hspared⟩ := (hbelow (List.mem_of_getElem? hindex)).1 href
      have hchild : (Node.sequence items).reach? [.item index] = some item := by simp [hindex]
      exact ⟨.item index :: way, Node.refersAt_cons.2 ⟨item, hchild, hway⟩,
        (spared_cons hchild).2 ⟨fun _ => hnot, hspared⟩⟩
    · rintro ⟨way, hway, hspared⟩
      obtain ⟨index, item, rest, rfl, hindex, hrest⟩ := Node.refersAt_sequence.1 hway
      have hmem := List.mem_of_getElem? hindex
      have hchild : (Node.sequence items).reach? [.item index] = some item := by simp [hindex]
      obtain ⟨hfirst, hlater⟩ := (spared_cons hchild).1 hspared
      by_cases hrepeated : Repeated (isAlternation key) (.sequence items) [.item index]
      · -- the item goes, so the reference is the item itself, and the first one like it stays
        obtain rfl : rest = [] := not_not.1 fun hne => hfirst hne hrepeated
        obtain ⟨pointer, hpointer, hparse⟩ :=
          Option.bind_eq_some_iff.1 (Node.refersAt_nil.1 hrest)
        obtain ⟨other, hother, hsame⟩ :=
          exists_mem_dropRepeated List.not_mem_nil hmem hpointer
        have hown : Reference.ofNode? other = some reference := by
          rw [Reference.ofNode?, hsame]
          exact hparse
        rw [(repeated_item.1 hrepeated).1, if_pos rfl, ← dropRepeated_nil]
        refine ⟨other, hother, (hbelow ((dropRepeated_sublist [] items).subset hother)).2 ?_⟩
        exact ⟨[], Node.refersAt_nil.2 hown, spared_nil⟩
      · exact ⟨item, mem_left_iff.2 ⟨index, hindex, hrepeated⟩,
          (hbelow hmem).2 ⟨rest, hrest, hlater⟩⟩
  | mapping entries ih =>
    obtain ⟨hkeys, hvalues⟩ := Node.wellFormed_mapping.1 h
    have hown : Reference.ofNode? (.mapping (Entries.mapValues dedupeValue entries)) =
        Reference.ofNode? (.mapping entries) := by
      rw [← dedupeValue_mapping key, Reference.ofNode?, refPointer?_dedupeValue, Reference.ofNode?]
    have hbelow {name : String} {value : Node} (hvalue : Entries.get? entries name = some value) :
        reference ∈ (dedupeValue name value).references ↔
          ∃ way, value.RefersAt way reference ∧ Spared (isAlternation name) value way :=
      ih _ (Entries.mem_of_get? hvalue) name (hvalues _ (Entries.mem_of_get? hvalue))
    rw [dedupeValue_mapping, Node.mem_references_mapping, hown]
    constructor
    · rintro (hmapping | ⟨entry, hmem, href⟩)
      · exact ⟨[], Node.refersAt_nil.2 hmapping, spared_nil⟩
      · obtain ⟨old, hold, rfl⟩ := List.mem_map.1 hmem
        have hvalue := Entries.get?_of_mem hkeys hold
        obtain ⟨way, hway, hspared⟩ := (hbelow hvalue).1 href
        have hchild : (Node.mapping entries).reach? [.key old.1] = some old.2 := by simp [hvalue]
        exact ⟨.key old.1 :: way, Node.refersAt_cons.2 ⟨old.2, hchild, hway⟩,
          (spared_cons hchild).2 ⟨fun _ => not_repeated_key entries old.1, hspared⟩⟩
    · rintro ⟨way, hway, hspared⟩
      obtain ⟨rfl, hmapping⟩ | ⟨name, value, rest, rfl, hvalue, hrest⟩ :=
        Node.refersAt_mapping.1 hway
      · exact .inl hmapping
      · have hchild : (Node.mapping entries).reach? [.key name] = some value := by simp [hvalue]
        have hlater := ((spared_cons hchild).1 hspared).2
        exact .inr ⟨_, List.mem_map_of_mem (Entries.mem_of_get? hvalue),
          (hbelow hvalue).2 ⟨rest, hrest, hlater⟩⟩

/-- Whether every repeated alternative refers to nothing, or only to what it is a reference to. -/
def NothingBeside (listed : Bool) (root : Node) : Prop :=
  ∀ way item, Repeated listed root way → root.reach? way = some item →
    ∀ reference ∈ item.references, Reference.ofNode? item = some reference

theorem NothingBeside.child {step : Step} {child : Node} (h : NothingBeside listed root)
    (hchild : root.reach? [step] = some child) : NothingBeside step.toAlternatives child := by
  intro way item hrepeated hitem
  refine h (step :: way) item (repeated_cons_of_child hchild hrepeated) ?_
  rw [Node.reach?_cons, hchild]
  exact hitem

/-- A tree and what is left of it, where no reference goes with a repeated alternative. -/
def Lossless (old new : Node) : Prop :=
  ∃ key, old.WellFormed ∧ NothingBeside (isAlternation key) old ∧ new = dedupeValue key old

namespace Lossless
variable {old new : Node}

theorem mem_references_iff (h : Lossless old new) (reference : Reference) :
    reference ∈ new.references ↔ reference ∈ old.references := by
  obtain ⟨key, hold, hbeside, rfl⟩ := h
  rw [mem_references_dedupeValue key hold, Node.mem_references_iff_refersAt hold]
  constructor
  · rintro ⟨way, hway, -⟩
    exact ⟨way, hway⟩
  · rintro ⟨way, hway⟩
    by_cases hspared : Spared (isAlternation key) old way
    · exact ⟨way, hway, hspared⟩
    · -- the reference is below a repeated alternative, so it is that one as well
      obtain ⟨front, step, rest, rfl, hrepeated, hfront⟩ := exists_spared_repeated hspared
      obtain ⟨item, hitem, hrest⟩ := Node.refersAt_append.1 hway
      have hbelow := (Node.mem_references_iff_refersAt (hold.reach? hitem)).2 ⟨_, hrest⟩
      have hown := hbeside front item hrepeated hitem reference hbelow
      refine ⟨front, ?_, hfront⟩
      rw [Node.RefersAt, hitem]
      exact hown

theorem field? (h : Lossless old new) (name : String) :
    Option.Rel Lossless (old.field? name) (new.field? name) := by
  obtain ⟨key, hold, hbeside, rfl⟩ := h
  cases old with
  | scalar value => exact .none
  | sequence items =>
    rw [dedupeValue_sequence]
    exact .none
  | mapping entries =>
    rw [dedupeValue_mapping]
    simp only [Node.field?, Entries.get?_mapValues]
    cases hvalue : Entries.get? entries name with
    | none => exact .none
    | some value =>
      have hchild : (Node.mapping entries).reach? [.key name] = some value := by simp [hvalue]
      exact .some ⟨name, hold.reach? hchild, hbeside.child hchild, rfl⟩

theorem under? (h : Lossless old new) (keys : List String) :
    Option.Rel Lossless (Node.under? keys old) (Node.under? keys new) := by
  induction keys generalizing old new with
  | nil => exact .some h
  | cons name rest ih =>
    rw [Node.under?, Node.under?]
    obtain ⟨x, y, hx, hy, hxy⟩ | ⟨hx, hy⟩ := Entries.rel_cases (h.field? name) <;> rw [hx, hy]
    · exact ih hxy
    · exact .none

/-- The values of a mapping under keys of some kind hold the same references. -/
theorem mem_flatMap_filter {old new : Option Node} (h : Option.Rel Lossless old new)
    (p : String → Bool) (reference : Reference) :
    reference ∈ (((new.bind Node.entries?).getD []).filter (p ·.1)).flatMap (·.2.references) ↔
      reference ∈ (((old.bind Node.entries?).getD []).filter (p ·.1)).flatMap (·.2.references) := by
  obtain ⟨x, y, rfl, rfl, hxy⟩ | ⟨rfl, rfl⟩ := Entries.rel_cases h
  · obtain ⟨key, hwell, hbeside, rfl⟩ := hxy
    cases x with
    | scalar value => exact Iff.rfl
    | sequence items =>
      rw [dedupeValue_sequence]
      exact Iff.rfl
    | mapping entries =>
      have hkeys := (Node.wellFormed_mapping.1 hwell).1
      have hvalue {entry : String × Node} (hmem : entry ∈ entries) :
          reference ∈ (dedupeValue entry.1 entry.2).references ↔
            reference ∈ entry.2.references := by
        have hchild : (Node.mapping entries).reach? [.key entry.1] = some entry.2 := by
          simp [Entries.get?_of_mem hkeys hmem]
        exact mem_references_iff ⟨entry.1, hwell.reach? hchild, hbeside.child hchild, rfl⟩ reference
      rw [dedupeValue_mapping]
      simp only [Option.bind_some, Node.entries?, Option.getD_some, Entries.filter_mapValues,
        List.mem_flatMap]
      simp only [Entries.mapValues, List.mem_map, exists_exists_and_eq_and]
      exact exists_congr fun entry =>
        and_congr_right fun hmem => hvalue (List.mem_filter.1 hmem).1
  · exact Iff.rfl

end Lossless

/-- Where no reference goes with a repeated alternative, the same components are in use. -/
theorem live_iff_of_lossless {doc changed : Document} (h : Lossless doc.root changed.root)
    {kinds : List ComponentKind} :
    Document.Live changed kinds reference ↔ Document.Live doc kinds reference := by
  refine Document.live_iff_of_agree (fun found => ?_) fun source _ found => ?_
  · have houtside := Lossless.mem_flatMap_filter (.some h) (· ≠ Document.componentsKey) found
    have hcategories := Lossless.mem_flatMap_filter (h.field? Document.componentsKey)
      (fun category => !Document.isGiven kinds category) found
    rw [Document.rootReferences, Document.rootReferences, List.mem_append, List.mem_append]
    exact or_congr houtside hcategories
  · rw [Document.targetReferences, Document.targetReferences, Document.target?_eq_under?,
      Document.target?_eq_under?]
    obtain ⟨x, y, hx, hy, hxy⟩ | ⟨hx, hy⟩ :=
      Entries.rel_cases (h.under? (Document.componentKeys source)) <;> rw [hx, hy]
    exact hxy.mem_references_iff found

/-- Removing repeated alternatives adds no reference, and of those that are there it loses the ones
that stand only below repeated alternatives. Where these refer to nothing but what they are
references to, none is lost and the same components are reachable. -/
theorem mem_references_dedupeAlternatives (doc : Document) (h : doc.root.WellFormed) :
    ∃ count changed, Pass.dedupeAlternatives.apply doc = .ok count changed ∧
      changed.references ⊆ doc.references ∧
      (∀ reference, reference ∈ changed.references ↔
        ∃ way, doc.root.RefersAt way reference ∧ Spared false doc.root way) ∧
      (NothingBeside false doc.root →
        (∀ reference, reference ∈ changed.references ↔ reference ∈ doc.references) ∧
          ∀ kinds reference, reference ∈ changed.reachable kinds ↔
            reference ∈ doc.reachable kinds) := by
  have hleft (reference : Reference) :
      reference ∈ (dedupe doc.root).1.references ↔
        ∃ way, doc.root.RefersAt way reference ∧ Spared false doc.root way := by
    rw [dedupe_fst]
    exact mem_references_dedupeValue "" h
  refine ⟨_, ⟨(dedupe doc.root).1⟩, rfl, fun reference hmem => ?_, hleft, fun hbeside => ?_⟩
  · obtain ⟨way, hway, -⟩ := (hleft reference).1 hmem
    exact (Node.mem_references_iff_refersAt h).2 ⟨way, hway⟩
  · have hlossless : Lossless doc.root (dedupe doc.root).1 :=
      ⟨"", h, hbeside, dedupe_fst doc.root⟩
    refine ⟨hlossless.mem_references_iff, fun kinds reference => ?_⟩
    rw [Document.mem_reachable_iff, Document.mem_reachable_iff]
    exact live_iff_of_lossless hlossless

/-- Two alternatives that refer to the same component, the second with a title. -/
def titledAlternatives : Document :=
  ⟨.mapping [("oneOf", .sequence [(Reference.mk .schemas "A").toNode,
    .mapping [("$ref", .ofString "#/components/schemas/A"), ("title", .ofString "again")]])]⟩

theorem mem_references_dedupeAlternatives_titled :
    titledAlternatives.root.WellFormed ∧ NothingBeside false titledAlternatives.root ∧
      ∃ changed, Pass.dedupeAlternatives.apply titledAlternatives = .ok 1 changed ∧
        ∀ reference, reference ∈ changed.references ↔ reference ∈ titledAlternatives.references := by
  have hroot : titledAlternatives.root.WellFormed := by decide
  have hbeside : NothingBeside false titledAlternatives.root := by
    intro way item hrepeated hitem reference hmem
    obtain ⟨name, value, rest, rfl, hvalue, hlist⟩ := hrepeated.of_mapping
    obtain ⟨rfl, rfl⟩ : "oneOf" = name ∧ _ = value := by simpa using hvalue
    obtain ⟨index, other, later, rfl, hother, ⟨rfl, -, hrepeats⟩ | hbelow⟩ := hlist.of_sequence
    · obtain rfl : other = item := by simpa [titledAlternatives, hother] using hitem
      match index with
      | 0 => simp [repeats] at hrepeats
      | 1 =>
        obtain rfl := Option.some.inj hother
        revert reference
        decide
    · -- the items have only strings in them
      have hstrings : ∃ entries, other = .mapping entries ∧
          ∀ entry ∈ entries, ∃ text, entry.2 = .ofString text := by
        match index with
        | 0 => exact ⟨_, (Option.some.inj hother).symm, by simp⟩
        | 1 => exact ⟨_, (Option.some.inj hother).symm, by simp⟩
      obtain ⟨entries, rfl, hvalues⟩ := hstrings
      obtain ⟨name, value, _, rfl, hvalue, hbelow⟩ := hbelow.of_mapping
      obtain ⟨text, rfl⟩ := hvalues _ (Entries.mem_of_get? hvalue)
      exact absurd hbelow (not_repeated_scalar _)
  obtain ⟨count, changed, happly, -, -, hsame⟩ :=
    mem_references_dedupeAlternatives titledAlternatives hroot
  obtain ⟨rfl, -⟩ := EStateM.Result.ok.inj happly
  exact ⟨hroot, hbeside, changed, happly, (hsame hbeside).1⟩

/-- A second reference to a component with another one beside it, which nothing else refers to. -/
def lossyAlternatives : Document :=
  let second := (Reference.mk .schemas "B").toNode
  ⟨.mapping [("x", .mapping [("oneOf", .sequence [(Reference.mk .schemas "A").toNode,
      .mapping [("$ref", .ofString "#/components/schemas/A"), ("x", second)]])]),
    ("components", .mapping [("schemas", .mapping [("A", .mapping []), ("B", .mapping [])])])]⟩

/-- Not every reference is still there without the repeated alternatives, and what it refers to may
have become unreachable. -/
theorem not_all_references_left :
    ∃ changed, Pass.dedupeAlternatives.apply lossyAlternatives = .ok 1 changed ∧
      ⟨.schemas, "B"⟩ ∈ lossyAlternatives.references ∧ ⟨.schemas, "B"⟩ ∉ changed.references ∧
      ⟨.schemas, "B"⟩ ∈ lossyAlternatives.reachable [.schemas] ∧
      ⟨.schemas, "B"⟩ ∉ changed.reachable [.schemas] :=
  ⟨_, rfl, by decide, by decide, by decide, by decide⟩

end Alternatives
end ApiTidy
