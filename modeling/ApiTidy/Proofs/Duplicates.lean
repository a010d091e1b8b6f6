import Mathlib.Data.List.Forall2
import ApiTidy.Pass
import ApiTidy.Proofs.Alternatives
import ApiTidy.Proofs.Walk

/-!
What is left of lists of alternatives. An item stays unless it refers to what an item before it
refers to. What an item refers to does not depend on the lists inside it, so the lists of a mapping
may be shortened before those below it, as the walk does, or after them; the first order does not
count what was inside an item that is gone.
-/
namespace ApiTidy

/-- Entries under the same keys, with values that are related. -/
inductive Entries.Related {α β : Type} (R : String → α → β → Prop) : Entries α → Entries β → Prop
  | nil : Related R [] []
  | cons {key : String} {old : α} {new : β} {rest : Entries α} {later : Entries β} :
      R key old new → Related R rest later → Related R ((key, old) :: rest) ((key, new) :: later)

/-- A relation that leaves one choice for each value leaves one for the entries. -/
theorem Entries.related_iff_eq_mapValues {α β : Type} {R : String → α → β → Prop}
    {g : String → α → β} {entries : Entries α} {changed : Entries β}
    (h : ∀ entry ∈ entries, ∀ new, R entry.1 entry.2 new ↔ new = g entry.1 entry.2) :
    Related R entries changed ↔ changed = mapValues g entries := by
  induction entries generalizing changed with
  | nil =>
    constructor
    · intro hrelated
      cases hrelated
      rfl
    · rintro rfl
      exact .nil
  | cons entry rest ih =>
    obtain ⟨hentry, hrest⟩ := List.forall_mem_cons.1 h
    constructor
    · intro hrelated
      cases hrelated with
      | cons hfirst hlater => rw [mapValues_cons, (hentry _).1 hfirst, (ih hrest).1 hlater]
    · rintro rfl
      exact .cons ((hentry _).2 rfl) ((ih hrest).2 rfl)

/-- A relation that leaves one choice for each item leaves one for the list. -/
theorem forall₂_iff_eq_map {α β : Type} {R : α → β → Prop} {f : α → β} {items : List α}
    {changed : List β} (h : ∀ item ∈ items, ∀ other, R item other ↔ other = f item) :
    List.Forall₂ R items changed ↔ changed = items.map f := by
  induction items generalizing changed with
  | nil => exact List.forall₂_nil_left_iff
  | cons item rest ih =>
    obtain ⟨hitem, hrest⟩ := List.forall_mem_cons.1 h
    rw [List.forall₂_cons_left_iff, List.map_cons]
    constructor
    · rintro ⟨first, later, hfirst, hlater, rfl⟩
      rw [(hitem first).1 hfirst, (ih hrest).1 hlater]
    · rintro rfl
      exact ⟨_, _, (hitem _).2 rfl, (ih hrest).2 rfl, rfl⟩

namespace Alternatives

/-- Whether an item refers to what one of the items before it refers to. -/
def repeats (before : List Node) (item : Node) : Bool :=
  item.refPointer?.any fun pointer => before.any (·.refPointer? = some pointer)

/-- The items of a list that repeat none before them. -/
def firstOfEach (items : List Node) : List Node :=
  (items.zipIdx.filter fun (item, place) => !repeats (items.take place) item).map (·.1)

/-- The tree with the lists of alternatives shortened. Whether its top is such a list, if it is a
sequence, is said by the key that it stands under. -/
inductive Deduped : Bool → Node → Node → Prop
  | scalar {listed : Bool} (value : Scalar) : Deduped listed (.scalar value) (.scalar value)
  | sequence {items changed : List Node} :
      List.Forall₂ (Deduped false) items changed →
      Deduped false (.sequence items) (.sequence changed)
  | alternatives {items changed : List Node} :
      List.Forall₂ (Deduped false) (firstOfEach items) changed →
      Deduped true (.sequence items) (.sequence changed)
  | mapping {listed : Bool} {entries changed : Entries Node} :
      Entries.Related (fun key => Deduped (isAlternation key)) entries changed →
      Deduped listed (.mapping entries) (.mapping changed)

/-- Shorten the lists of alternatives of a single mapping. -/
def dedupeOwnLists : Change (Entries Node) :=
  Change.andThen (Change.atKey "oneOf" (Change.inSequence dedupeReferences))
    (Change.atKey "anyOf" (Change.inSequence dedupeReferences))

section Items
variable {seen : List String} {before : List Node}

/-- The pointers that were seen are those of the items before. -/
theorem repeats_eq (h : ∀ pointer, pointer ∈ seen ↔ ∃ item ∈ before, item.refPointer? = some pointer)
    (item : Node) : repeats before item = item.refPointer?.any (seen.contains ·) := by
  have hseen (pointer : String) :
      before.any (·.refPointer? = some pointer) = seen.contains pointer := by
    rw [Bool.eq_iff_iff, List.contains_iff_mem, h]
    simp
  exact congrArg item.refPointer?.any (funext hseen)

theorem dropRepeated_cons (seen : List String) (item : Node) (rest : List Node) :
    dropRepeated seen (item :: rest) =
      if item.refPointer?.any (seen.contains ·) then dropRepeated seen rest
      else item :: dropRepeated (item.refPointer?.toList ++ seen) rest := by
  rw [dropRepeated]
  cases item.refPointer? <;> rfl

theorem dropRepeated_eq_filter
    (h : ∀ pointer, pointer ∈ seen ↔ ∃ item ∈ before, item.refPointer? = some pointer)
    (items : List Node) :
    dropRepeated seen items =
      ((items.zipIdx before.length).filter fun (item, place) =>
        !repeats ((before ++ items).take place) item).map (·.1) := by
  induction items generalizing seen before with
  | nil => rfl
  | cons item rest ih =>
    have htake : (before ++ item :: rest).take before.length = before := List.take_left
    have happend : before ++ item :: rest = (before ++ [item]) ++ rest := by simp
    have hlength : (before ++ [item]).length = before.length + 1 := by simp
    rw [dropRepeated_cons, ← repeats_eq h, List.zipIdx_cons, List.filter_cons]
    simp only [htake]
    rw [happend, ← hlength]
    cases hrepeats : repeats before item with
    | true =>
      -- The pointer of the item was seen, so it adds none.
      have hsame : ∀ pointer, pointer ∈ seen ↔
          ∃ other ∈ before ++ [item], other.refPointer? = some pointer := by
        intro pointer
        rw [repeats_eq h] at hrepeats
        simp only [h, List.mem_append, List.mem_singleton, or_and_right, exists_or,
          exists_eq_left]
        refine ⟨.inl, fun hcase => hcase.elim id fun hpointer => (h pointer).1 ?_⟩
        simpa [hpointer] using hrepeats
      simpa using ih hsame
    | false =>
      have hmore : ∀ pointer, pointer ∈ item.refPointer?.toList ++ seen ↔
          ∃ other ∈ before ++ [item], other.refPointer? = some pointer := by
        intro pointer
        simp only [List.mem_append, Option.mem_toList, h, List.mem_singleton, or_and_right,
          exists_or, exists_eq_left]
        exact or_comm
      simpa using ih hmore

theorem dropRepeated_nil (items : List Node) : dropRepeated [] items = firstOfEach items :=
  have hseen : ∀ pointer, pointer ∈ ([] : List String) ↔
      ∃ item ∈ ([] : List Node), item.refPointer? = some pointer := by simp
  dropRepeated_eq_filter hseen items

end Items

section Relation
variable {listed : Bool} {other : Node}

theorem deduped_scalar {value : Scalar} :
    Deduped listed (.scalar value) other ↔ other = .scalar value := by
  constructor
  · intro h
    cases h
    rfl
  · rintro rfl
    exact .scalar value

theorem deduped_sequence {items : List Node} :
    Deduped listed (.sequence items) other ↔ ∃ changed, other = .sequence changed ∧
      List.Forall₂ (Deduped false) (if listed then firstOfEach items else items) changed := by
  constructor
  · intro h
    cases h with
    | sequence hitems => exact ⟨_, rfl, hitems⟩
    | alternatives hitems => exact ⟨_, rfl, hitems⟩
  · rintro ⟨changed, rfl, hitems⟩
    cases listed with
    | false => exact .sequence hitems
    | true => exact .alternatives hitems

theorem deduped_mapping {entries : Entries Node} :
    Deduped listed (.mapping entries) other ↔ ∃ changed, other = .mapping changed ∧
      Entries.Related (fun key => Deduped (isAlternation key)) entries changed := by
  constructor
  · intro h
    cases h with
    | mapping hentries => exact ⟨_, rfl, hentries⟩
  · rintro ⟨changed, rfl, hentries⟩
    exact .mapping hentries

/-- The relation leaves one tree, which is the one that is made. -/
theorem deduped_iff (key : String) {node : Node} :
    Deduped (isAlternation key) node other ↔ other = dedupeValue key node := by
  induction node using Node.induct generalizing key other with
  | scalar value => exact deduped_scalar
  | sequence items ih =>
    have hkept : ∀ item ∈ if isAlternation key then firstOfEach items else items, item ∈ items := by
      split
      · rw [← dropRepeated_nil]
        exact fun item hmem => (dropRepeated_sublist [] items).subset hmem
      · exact fun _ hmem => hmem
    have hitems {changed : List Node} :
        List.Forall₂ (Deduped false) (if isAlternation key then firstOfEach items else items)
          changed ↔ changed = (if isAlternation key then firstOfEach items else items).map
            (dedupeValue "") :=
      forall₂_iff_eq_map fun item hmem _ => ih item (hkept item hmem) ""
    rw [deduped_sequence, dedupeValue_sequence, dropRepeated_nil]
    constructor
    · rintro ⟨changed, rfl, hchanged⟩
      rw [hitems.1 hchanged]
    · rintro rfl
      exact ⟨_, rfl, hitems.2 rfl⟩
  | mapping entries ih =>
    have hvalues {changed : Entries Node} :
        Entries.Related (fun key => Deduped (isAlternation key)) entries changed ↔
          changed = Entries.mapValues dedupeValue entries :=
      Entries.related_iff_eq_mapValues fun entry hmem _ => ih entry hmem _
    rw [deduped_mapping, dedupeValue_mapping]
    constructor
    · rintro ⟨changed, rfl, hentries⟩
      rw [hvalues.1 hentries]
    · rintro rfl
      exact ⟨_, rfl, hvalues.2 rfl⟩

end Relation

section Own

/-- What a visit of the mapping makes of the value of a key. -/
def dedupeOwn (key : String) : Change Node :=
  if isAlternation key then Change.inSequence dedupeReferences else Change.keep

theorem dedupeOwn_of_items?_none {node : Node} (h : node.items? = none) (key : String) :
    dedupeOwn key node = (node, 0) := by
  unfold dedupeOwn
  split
  · cases node with
    | sequence items => cases h
    | scalar value => rfl
    | mapping entries => rfl
  · rfl

theorem dedupeOwn_sequence (key : String) (items : List Node) :
    dedupeOwn key (.sequence items) =
      if isAlternation key then
        (.sequence (dropRepeated [] items), items.length - (dropRepeated [] items).length)
      else (.sequence items, 0) := by
  unfold dedupeOwn
  split <;> rfl

theorem dedupeOwnLists_eq {entries : Entries Node} (h : Entries.Distinct entries) :
    dedupeOwnLists entries = Change.onValues dedupeOwn entries := by
  have hkeys (change : Change Node) :
      Entries.Distinct (Change.atKey "oneOf" change entries).1 := by
    rw [Change.atKey_fst, Entries.Distinct, Entries.keys_modify]
    exact h
  have hboth : dedupeOwn = fun key =>
      Change.andThen (if key = "oneOf" then Change.inSequence dedupeReferences else Change.keep)
        (if key = "anyOf" then Change.inSequence dedupeReferences else Change.keep) := by
    funext key node
    by_cases hone : key = "oneOf"
    · subst hone
      rfl
    · by_cases hany : key = "anyOf"
      · subst hany
        exact Prod.ext rfl (Nat.zero_add _).symm
      · simp [dedupeOwn, isAlternation, hone, hany, Change.andThen, Change.keep]
  rw [hboth, ← Change.andThen_onValues]
  simp only [dedupeOwnLists, Change.andThen, Change.atKey_eq_onValues (hkeys _)]
  simp only [Change.atKey_eq_onValues h]

/-- The items that are gone are counted with the list, and the others for themselves. -/
theorem dedupeList_eq (seen : List String) (items : List Node) :
    dedupeList seen items =
      ((dedupeItems (dropRepeated seen items)).1,
        items.length - (dropRepeated seen items).length +
          (dedupeItems (dropRepeated seen items)).2) := by
  induction items generalizing seen with
  | nil => rfl
  | cons item rest ih =>
    rw [dedupeList, dropRepeated_cons]
    split
    next =>
      have hshort := (dropRepeated_sublist seen rest).length_le
      rw [ih seen, List.length_cons, Nat.succ_sub hshort]
      exact Prod.ext rfl (by simp only; omega)
    next =>
      rw [ih]
      simp only [dedupeItems, List.length_cons, Nat.add_sub_add_right]
      exact Prod.ext rfl (by simp only; omega)

/-- A value is changed with the mapping that holds it, and then for itself. -/
theorem dedupeAt_eq (key : String) : dedupeAt key = Change.andThen (dedupeOwn key) dedupe := by
  funext node
  cases node with
  | scalar value =>
    have hnone : (Node.scalar value).items? = none := rfl
    simp only [Change.andThen, dedupeOwn_of_items?_none hnone]
    rfl
  | mapping entries =>
    have hnone : (Node.mapping entries).items? = none := rfl
    simp only [Change.andThen, dedupeOwn_of_items?_none hnone, Nat.zero_add]
    rfl
  | sequence items =>
    simp only [Change.andThen, dedupeOwn_sequence, dedupeAt]
    split <;> simp [dedupeList_eq, dedupe]

theorem dedupeOwn_fst_cases (key : String) (node : Node) :
    (dedupeOwn key node).1 = node ∨ ∃ items kept, node = .sequence items ∧
      kept.Sublist items ∧ (dedupeOwn key node).1 = .sequence kept := by
  cases node with
  | scalar value => exact .inl (by rw [dedupeOwn_of_items?_none rfl])
  | mapping entries => exact .inl (by rw [dedupeOwn_of_items?_none rfl])
  | sequence items =>
    rw [dedupeOwn_sequence]
    split
    · exact .inr ⟨items, _, rfl, dropRepeated_sublist [] items, rfl⟩
    · exact .inl rfl

theorem wellFormed_dedupeOwn {node : Node} (h : node.WellFormed) (key : String) :
    (dedupeOwn key node).1.WellFormed := by
  obtain hsame | ⟨items, kept, rfl, hkept, hchanged⟩ := dedupeOwn_fst_cases key node
  · rwa [hsame]
  · rw [hchanged]
    exact Node.wellFormed_sequence.2 fun item hmem =>
      Node.wellFormed_sequence.1 h item (hkept.subset hmem)

theorem depth_dedupeOwn_le (key : String) (node : Node) :
    (dedupeOwn key node).1.depth ≤ node.depth := by
  obtain hsame | ⟨items, kept, rfl, hkept, hchanged⟩ := dedupeOwn_fst_cases key node
  · exact Nat.le_of_eq (congrArg Node.depth hsame)
  · have hitems := Node.depthItems_le_iff.1 (Nat.le_refl (Node.depthItems items))
    rw [hchanged]
    exact Nat.succ_le_succ
      (Node.depthItems_le_iff.2 fun item hmem => hitems item (hkept.subset hmem))

/-- Removing repeated references is the walk that shortens the lists of each mapping it visits. -/
theorem parentsFirst_dedupe : Node.ParentsFirst dedupeOwnLists dedupe where
  scalar _ := rfl
  sequence items := by simp [dedupe, dedupeItems_eq_onItems, Change.inSequence]
  mapping {entries} h := by
    have hown := dedupeOwnLists_eq (Node.wellFormed_mapping.1 h).1
    have hall : Change.andThen dedupeOwnLists (Change.onValues fun _ => dedupe) entries =
        Change.onValues dedupeAt entries := by
      rw [funext dedupeAt_eq, ← Change.andThen_onValues]
      simp only [Change.andThen, hown]
    simp only [dedupe, Change.inMapping, dedupeEntries_eq_onValues, hall]
  wellFormed {entries} h := by
    obtain ⟨hkeys, hvalues⟩ := Node.wellFormed_mapping.1 h
    rw [dedupeOwnLists_eq hkeys, Change.onValues_fst]
    refine Node.wellFormed_mapping.2 ⟨by rwa [Entries.Distinct, Entries.keys_mapValues], ?_⟩
    intro entry hmem
    obtain ⟨old, hold, rfl⟩ := List.mem_map.1 hmem
    exact wellFormed_dedupeOwn (hvalues old hold) old.1
  depth {entries} h := by
    rw [dedupeOwnLists_eq (Node.wellFormed_mapping.1 h).1, Change.onValues_fst]
    have hbelow := Node.depthEntries_le_iff.1 (Nat.le_refl (Node.depthEntries entries))
    refine Node.depthEntries_le_iff.2 fun entry hmem => ?_
    obtain ⟨old, hold, rfl⟩ := List.mem_map.1 hmem
    exact Nat.le_trans (depth_dedupeOwn_le old.1 old.2) (hbelow old hold)

/-- Shortening a list before or after the lists inside its items makes the same. -/
theorem dedupeOwn_dedupeValue (key : String) (node : Node) :
    (dedupeOwn key (dedupeValue "" node)).1 = dedupeValue key node := by
  cases node with
  | scalar value => rw [dedupeOwn_of_items?_none rfl]; rfl
  | mapping entries =>
    rw [dedupeOwn_of_items?_none (by simp [Node.items?])]
    simp
  | sequence items =>
    have hplain : isAlternation "" = false := by decide
    rw [dedupeValue_sequence, dedupeValue_sequence, dedupeOwn_sequence, hplain]
    simp only [Bool.false_eq_true, if_false, dropRepeated_map (refPointer?_dedupeValue "")]
    split <;> rfl

/-- The lists may be shortened from the leaves up. -/
theorem rewriteUp_dedupeOwnLists {node : Node} (h : node.WellFormed) :
    node.rewriteUp (fun entries => (dedupeOwnLists entries).1) = dedupeValue "" node := by
  induction node using Node.induct with
  | scalar value => rfl
  | sequence items ih =>
    have hitems := Node.wellFormed_sequence.1 h
    have hplain : isAlternation "" = false := by decide
    rw [Node.rewriteUp_sequence, dedupeValue_sequence, hplain]
    exact congrArg _ (List.map_congr_left fun item hmem => ih item hmem (hitems item hmem))
  | mapping entries ih =>
    obtain ⟨hkeys, hvalues⟩ := Node.wellFormed_mapping.1 h
    have hbelow : Entries.mapValues (fun _ => Node.rewriteUp fun entries =>
        (dedupeOwnLists entries).1) entries = Entries.mapValues (fun _ => dedupeValue "") entries :=
      Entries.mapValues_congr fun entry hmem => ih entry hmem (hvalues entry hmem)
    have hdistinct : Entries.Distinct (Entries.mapValues (fun _ => dedupeValue "") entries) := by
      rwa [Entries.Distinct, Entries.keys_mapValues]
    rw [Node.rewriteUp_mapping, dedupeValue_mapping, hbelow, dedupeOwnLists_eq hdistinct,
      Change.onValues_fst, Entries.mapValues_mapValues]
    exact congrArg _ (Entries.mapValues_congr fun entry _ => dedupeOwn_dedupeValue entry.1 entry.2)

end Own

/-- Removing repeated references shortens each list of alternatives that is left to the items that
repeat none before them, and changes nothing else. It is the walk with parents before children, with
its count, and makes the same tree as rewriting from the leaves up. -/
theorem dedupeAlternatives_exact (doc : Document) (h : doc.root.WellFormed) :
    ∃ count root, Pass.dedupeAlternatives.apply doc = .ok count ⟨root⟩ ∧
      (∀ other, Deduped false doc.root other ↔ other = root) ∧
      doc.root.walkMappings (Node.counted dedupeOwnLists) 0 = (root, count) ∧
      doc.root.rewriteUp (fun entries => (dedupeOwnLists entries).1) = root := by
  have hroot : (dedupe doc.root).1 = dedupeValue "" doc.root := dedupe_fst doc.root
  refine ⟨(dedupe doc.root).2, (dedupe doc.root).1, rfl, fun other => ?_, ?_, ?_⟩
  · rw [hroot]
    exact deduped_iff ""
  · exact parentsFirst_dedupe.walkMappings h
  · rw [hroot]
    exact rewriteUp_dedupeOwnLists h

/-- A list of alternatives with lists inside an item that stays and inside one that goes. -/
def nestedAlternatives : Document :=
  let first := (Reference.mk .schemas "A").toNode
  let second := (Reference.mk .schemas "B").toNode
  ⟨.mapping [("oneOf", .sequence [first, .mapping [("anyOf", .sequence [second, .null, second])],
    .mapping [("$ref", .ofString "#/components/schemas/A"), ("oneOf", .sequence [second, second])],
    second])]⟩

theorem dedupeAlternatives_exact_nested :
    nestedAlternatives.root.WellFormed ∧ ∃ root,
      Pass.dedupeAlternatives.apply nestedAlternatives = .ok 2 ⟨root⟩ ∧
        Deduped false nestedAlternatives.root root ∧
        nestedAlternatives.root.walkMappings (Node.counted dedupeOwnLists) 0 = (root, 2) ∧
        nestedAlternatives.root.rewriteUp (fun entries => (dedupeOwnLists entries).1) = root := by
  have hroot : nestedAlternatives.root.WellFormed := by decide
  obtain ⟨count, root, happly, hunique, hwalk, hup⟩ :=
    dedupeAlternatives_exact nestedAlternatives hroot
  obtain rfl : 2 = count := congrArg Prod.snd hwalk
  exact ⟨hroot, root, happly, (hunique root).2 rfl, hwalk, hup⟩

end Alternatives
end ApiTidy
