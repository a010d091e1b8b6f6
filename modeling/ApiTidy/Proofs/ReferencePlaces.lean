import Mathlib.Data.List.Nodup
import Mathlib.Tactic.Choose
import ApiTidy.Proofs.Address.Way
import ApiTidy.Proofs.References

/-!
Where a tree holds a reference: at the ends of the ways that lead to a mapping that is one. In a tree
without repeated keys these are all the references that are found in it, and each is found once for
each way to it.
-/
namespace ApiTidy.Node
variable {node child : Node} {step : Step} {way : List Step} {reference : Reference}

/-- Whether a way leads to a mapping that is the reference. -/
def RefersAt (node : Node) (way : List Step) (reference : Reference) : Prop :=
  (node.reach? way).bind Reference.ofNode? = some reference

theorem refersAt_nil : node.RefersAt [] reference ↔ Reference.ofNode? node = some reference := by
  simp [RefersAt]

theorem refersAt_append {front rest : List Step} :
    node.RefersAt (front ++ rest) reference ↔
      ∃ found, node.reach? front = some found ∧ found.RefersAt rest reference := by
  simp only [RefersAt, reach?_append, Option.bind_assoc, Option.bind_eq_some_iff]

theorem refersAt_cons {step : Step} {rest : List Step} :
    node.RefersAt (step :: rest) reference ↔
      ∃ child, node.reach? [step] = some child ∧ child.RefersAt rest reference := by
  rw [← List.singleton_append, refersAt_append]

theorem not_refersAt_scalar (value : Scalar) : ¬ (scalar value).RefersAt way reference := by
  cases way with
  | nil => simp [refersAt_nil, Reference.ofNode?, refPointer?, field?]
  | cons step rest => simp [RefersAt]

/-- The references of a sequence are in its items. -/
theorem refersAt_sequence {items : List Node} :
    (sequence items).RefersAt way reference ↔ ∃ index item rest, way = .item index :: rest ∧
      items[index]? = some item ∧ item.RefersAt rest reference := by
  cases way with
  | nil => simp [refersAt_nil, Reference.ofNode?, refPointer?, field?]
  | cons step rest =>
    rw [refersAt_cons]
    cases step with
    | key name => simp
    | item index => simp

/-- Those of a mapping are in its values, but for the one that it may be itself. -/
theorem refersAt_mapping {entries : Entries Node} :
    (mapping entries).RefersAt way reference ↔
      (way = [] ∧ Reference.ofNode? (.mapping entries) = some reference) ∨
        ∃ name value rest, way = .key name :: rest ∧ Entries.get? entries name = some value ∧
          value.RefersAt rest reference := by
  cases way with
  | nil => simp [refersAt_nil]
  | cons step rest =>
    rw [refersAt_cons]
    cases step with
    | key name => simp
    | item index => simp

/-- The steps that lead on from a node, with the nodes that they lead to. -/
def branches : Node → List (Step × Node)
  | .scalar _ => []
  | .sequence items => items.zipIdx.map fun (item, index) => (.item index, item)
  | .mapping entries => entries.map fun (key, value) => (.key key, value)

/-- Induction over a tree, in one way for items and for values. -/
theorem induct_branches {motive : Node → Prop}
    (h : ∀ node : Node, (∀ branch ∈ node.branches, motive branch.2) → motive node) (node : Node) :
    motive node := by
  induction node using Node.induct with
  | scalar value => exact h _ (by simp [branches])
  | sequence items ih =>
    refine h _ fun branch hbranch => ?_
    obtain ⟨⟨item, index⟩, hitem, rfl⟩ := List.mem_map.1 hbranch
    exact ih item (List.fst_mem_of_mem_zipIdx hitem)
  | mapping entries ih =>
    refine h _ fun branch hbranch => ?_
    obtain ⟨entry, hentry, rfl⟩ := List.mem_map.1 hbranch
    exact ih entry hentry

/-- Without repeated keys the branches are what one step leads to. -/
theorem mem_branches (h : node.WellFormed) :
    (step, child) ∈ node.branches ↔ node.reach? [step] = some child := by
  cases node with
  | scalar value => simp [branches]
  | sequence items =>
    cases step with
    | key name => simp [branches]
    | item index => simp [branches, List.mem_zipIdx_iff_getElem?]
  | mapping entries =>
    cases step with
    | item index => simp [branches]
    | key name =>
      have hkeys := (wellFormed_mapping.1 h).1
      have hentry : (name, child) ∈ entries ↔ Entries.get? entries name = some child :=
        ⟨Entries.get?_of_mem hkeys, Entries.mem_of_get?⟩
      simp [branches, hentry]

theorem nodup_branches (h : node.WellFormed) : (node.branches.map Prod.fst).Nodup := by
  cases node with
  | scalar value => exact List.nodup_nil
  | sequence items =>
    have hsteps : (sequence items).branches.map Prod.fst =
        (items.zipIdx.map Prod.snd).map Step.item := by
      rw [branches, List.map_map, List.map_map]
      rfl
    rw [hsteps, List.zipIdx_map_snd]
    exact List.Nodup.map (fun _ _ => Step.item.inj) List.nodup_range'
  | mapping entries =>
    have hsteps : (mapping entries).branches.map Prod.fst =
        (Entries.keys entries).map Step.key := by
      simp [branches, Entries.keys]
    rw [hsteps]
    exact List.Nodup.map (fun _ _ => Step.key.inj) (wellFormed_mapping.1 h).1

/-- The references of a tree are the one that it may be itself and those of its branches. -/
theorem references_eq (node : Node) :
    node.references =
      (Reference.ofNode? node).toList ++ node.branches.flatMap fun branch => branch.2.references := by
  cases node with
  | scalar value => rfl
  | sequence items =>
    have hitems : items.zipIdx.flatMap (fun pair => pair.1.references) =
        (items.zipIdx.map Prod.fst).flatMap references := (List.flatMap_map _ _ _).symm
    rw [references, referencesItems_eq_flatMap, branches, List.flatMap_map, hitems,
      List.zipIdx_map_fst]
    rfl
  | mapping entries =>
    rw [references, referencesEntries_eq_flatMap, branches, List.flatMap_map]

/-- Whether a list has the references of a tree, with the ways to them, each way once. -/
structure ListsReferences (places : List (List Step × Reference)) (node : Node) : Prop where
  references : places.map Prod.snd = node.references
  nodup : (places.map Prod.fst).Nodup
  mem : ∀ way reference, (way, reference) ∈ places ↔ node.RefersAt way reference

/-- The reference that a node may be itself, and those of its branches one step further down. -/
def placedReferences (below : Step × Node → List (List Step × Reference)) (node : Node) :
    List (List Step × Reference) :=
  (Reference.ofNode? node).toList.map (([], ·)) ++ node.branches.flatMap fun branch =>
    (below branch).map fun place => (branch.1 :: place.1, place.2)

variable {below : Step × Node → List (List Step × Reference)}

theorem map_snd_placedReferences
    (hbelow : ∀ branch ∈ node.branches, (below branch).map Prod.snd = branch.2.references) :
    (node.placedReferences below).map Prod.snd = node.references := by
  simp [placedReferences, references_eq node, List.map_flatMap, Function.comp_def,
    List.flatMap_congr hbelow]

/-- No way is there twice: ways of different branches differ in their first step. -/
theorem nodup_placedReferences (hnode : node.WellFormed)
    (hbelow : ∀ branch ∈ node.branches, ((below branch).map Prod.fst).Nodup) :
    ((node.placedReferences below).map Prod.fst).Nodup := by
  have hways : (node.branches.flatMap fun branch =>
      (below branch).map fun place => branch.1 :: place.1).Nodup := by
    refine List.nodup_flatMap.2 ⟨fun branch hbranch => ?_, ?_⟩
    · have hinner := (hbelow branch hbranch).map (f := (branch.1 :: ·)) fun _ _ => by simp
      rwa [List.map_map] at hinner
    · refine (List.pairwise_map.1 (nodup_branches hnode)).imp fun {a b} hne way ha hb => ?_
      obtain ⟨_, -, rfl⟩ := List.mem_map.1 ha
      obtain ⟨_, -, heq⟩ := List.mem_map.1 hb
      exact hne (List.cons.inj heq).1.symm
  cases hown : Reference.ofNode? node with
  | none => simpa [placedReferences, hown, List.map_flatMap, Function.comp_def] using hways
  | some own => simpa [placedReferences, hown, List.map_flatMap, Function.comp_def] using hways

theorem mem_placedReferences (hnode : node.WellFormed)
    (hbelow : ∀ branch ∈ node.branches, ∀ way reference,
      (way, reference) ∈ below branch ↔ branch.2.RefersAt way reference) :
    (way, reference) ∈ node.placedReferences below ↔ node.RefersAt way reference := by
  cases way with
  | nil => simp [placedReferences, refersAt_nil]
  | cons step rest =>
    have hown : (step :: rest, reference) ∉
        (Reference.ofNode? node).toList.map (([], ·)) := by simp
    rw [placedReferences, List.mem_append, or_iff_right hown, List.mem_flatMap, refersAt_cons]
    constructor
    · rintro ⟨branch, hbranch, hmem⟩
      obtain ⟨place, hplace, heq⟩ := List.mem_map.1 hmem
      obtain ⟨hway, rfl⟩ := Prod.mk.inj heq
      obtain ⟨rfl, rfl⟩ := List.cons.inj hway
      exact ⟨branch.2, (mem_branches hnode).1 hbranch, (hbelow branch hbranch _ _).1 hplace⟩
    · rintro ⟨child, hchild, hrefers⟩
      have hbranch := (mem_branches hnode).2 hchild
      exact ⟨_, hbranch, List.mem_map.2 ⟨_, (hbelow _ hbranch _ _).2 hrefers, rfl⟩⟩

/-- The references of a tree without repeated keys are in step with the ways to them. -/
theorem exists_listsReferences (h : node.WellFormed) : ∃ places, ListsReferences places node := by
  induction node using induct_branches with | h node ih =>
  have hbranches : ∀ branch ∈ node.branches, ∃ places, ListsReferences places branch.2 :=
    fun branch hbranch => ih branch hbranch (h.reach? ((mem_branches h).1 hbranch))
  choose! below hbelow using hbranches
  refine ⟨node.placedReferences below, ?_, ?_, fun way reference => ?_⟩
  · exact map_snd_placedReferences fun branch hbranch => (hbelow branch hbranch).references
  · exact nodup_placedReferences h fun branch hbranch => (hbelow branch hbranch).nodup
  · exact mem_placedReferences h fun branch hbranch => (hbelow branch hbranch).mem

/-- The references that are found in a tree are those that a way leads to. -/
theorem mem_references_iff_refersAt (h : node.WellFormed) :
    reference ∈ node.references ↔ ∃ way, node.RefersAt way reference := by
  obtain ⟨places, hplaces⟩ := exists_listsReferences h
  rw [← hplaces.references, List.mem_map]
  constructor
  · rintro ⟨place, hplace, rfl⟩
    exact ⟨place.1, (hplaces.mem _ _).1 hplace⟩
  · rintro ⟨way, hway⟩
    exact ⟨(way, reference), (hplaces.mem _ _).2 hway, rfl⟩

end ApiTidy.Node
