import Mathlib.Data.Set.Card
import ApiTidy.Proofs.Address.Way
import ApiTidy.Proofs.Walk

/-!
Changes of a tree at some of its places. Where the values of a mapping are changed one by one, the
ways to the edits are those below its keys, and with distinct keys none of them is counted twice. So
a change that goes down by keys to some places changes the nodes there, each by itself, and counts
their edits; everything beside the places stays, and the containers above them keep their keys.
-/
namespace ApiTidy
namespace Node
variable {place : List Step → Prop} {edits : Node → Set (List Step)}

theorem rel_grown_refl (node : Option Node) : Option.Rel (Grown []) node node := by
  cases node with
  | none => exact .none
  | some node => exact .some (.refl node)

/-- The ways through the values of a mapping that go on with some ways of the value. -/
def throughValues (ways : String → Node → Set (List Step)) (entries : Entries Node) :
    Set (List Step) :=
  {way | ∃ key value rest, Entries.get? entries key = some value ∧ rest ∈ ways key value ∧
    way = .key key :: rest}

/-- The ways through the items of a sequence, counted from some place on, that go on with some ways
of the item. -/
def throughItems (ways : Node → Set (List Step)) (start : Nat) (items : List Node) :
    Set (List Step) :=
  {way | ∃ index item rest, items[index]? = some item ∧ rest ∈ ways item ∧
    way = .item (start + index) :: rest}

theorem throughValues_cons (ways : String → Node → Set (List Step)) {key : String} {value : Node}
    {rest : Entries Node} (h : key ∉ Entries.keys rest) :
    throughValues ways ((key, value) :: rest) =
      (.key key :: ·) '' ways key value ∪ throughValues ways rest := by
  ext way
  constructor
  · rintro ⟨name, child, later, hchild, hlater, rfl⟩
    rw [Entries.get?_cons] at hchild
    split at hchild
    next heq =>
      obtain rfl := Option.some.inj hchild
      subst heq
      exact .inl ⟨later, hlater, rfl⟩
    next => exact .inr ⟨name, child, later, hchild, hlater, rfl⟩
  · rintro (⟨later, hlater, rfl⟩ | ⟨name, child, later, hchild, hlater, rfl⟩)
    · exact ⟨key, value, later, by simp, hlater, rfl⟩
    · have hne : key ≠ name := by
        rintro rfl
        exact h (Entries.get?_isSome_iff.1 (by rw [hchild]; rfl))
      exact ⟨name, child, later, by simp [hne, hchild], hlater, rfl⟩

/-- What a change of all values counts is what it counts in each of them. -/
theorem encard_throughValues {ways : String → Node → Set (List Step)}
    (change : String → Change Node) {entries : Entries Node} (hkeys : Entries.Distinct entries)
    (h : ∀ entry ∈ entries, (ways entry.1 entry.2).encard = (change entry.1 entry.2).2) :
    (throughValues ways entries).encard = (Change.onValues change entries).2 := by
  induction entries with
  | nil =>
    have hnone : throughValues ways [] = ∅ := by simp [throughValues]
    simp [hnone, Change.onValues]
  | cons entry rest ih =>
    obtain ⟨key, value⟩ := entry
    obtain ⟨hentry, hrest⟩ := List.forall_mem_cons.1 h
    obtain ⟨hfirst, hothers⟩ := List.nodup_cons.1 hkeys
    have happart : Disjoint ((Step.key key :: ·) '' ways key value) (throughValues ways rest) := by
      rw [Set.disjoint_left]
      rintro _ ⟨later, -, rfl⟩ ⟨name, child, _, hchild, -, hway⟩
      obtain rfl : key = name := Step.key.inj (List.head_eq_of_cons_eq hway)
      exact hfirst (Entries.get?_isSome_iff.1 (by rw [hchild]; rfl))
    rw [throughValues_cons ways hfirst, Set.encard_union_eq happart,
      List.cons_injective.encard_image, hentry, ih hothers hrest]
    simp [Change.onValues]

theorem throughItems_cons (ways : Node → Set (List Step)) (start : Nat) (item : Node)
    (rest : List Node) :
    throughItems ways start (item :: rest) =
      (.item start :: ·) '' ways item ∪ throughItems ways (start + 1) rest := by
  ext way
  constructor
  · rintro ⟨index, child, later, hchild, hlater, rfl⟩
    cases index with
    | zero =>
      obtain rfl : item = child := by simpa using hchild
      exact .inl ⟨later, hlater, rfl⟩
    | succ index =>
      exact .inr ⟨index, child, later, by simpa using hchild, hlater, by congr 2; omega⟩
  · rintro (⟨later, hlater, rfl⟩ | ⟨index, child, later, hchild, hlater, rfl⟩)
    · exact ⟨0, item, later, rfl, hlater, rfl⟩
    · exact ⟨index + 1, child, later, by simpa using hchild, hlater, by congr 2; omega⟩

/-- What a change of all items counts is what it counts in each of them. -/
theorem encard_throughItems {ways : Node → Set (List Step)} (change : Change Node)
    {items : List Node} (h : ∀ item ∈ items, (ways item).encard = (change item).2) (start : Nat) :
    (throughItems ways start items).encard = (Change.onItems change items).2 := by
  induction items generalizing start with
  | nil =>
    have hnone : throughItems ways start [] = ∅ := by simp [throughItems]
    simp [hnone, Change.onItems]
  | cons item rest ih =>
    obtain ⟨hitem, hrest⟩ := List.forall_mem_cons.1 h
    have happart : Disjoint ((Step.item start :: ·) '' ways item)
        (throughItems ways (start + 1) rest) := by
      rw [Set.disjoint_left]
      rintro _ ⟨later, -, rfl⟩ ⟨index, child, _, -, -, hway⟩
      have hstart := Step.item.inj (List.head_eq_of_cons_eq hway)
      omega
    rw [throughItems_cons, Set.encard_union_eq happart, List.cons_injective.encard_image, hitem,
      ih hrest]
    simp [Change.onItems]

theorem onItems_indicator_snd (p : Node → Bool) (items : List Node) :
    (Change.onItems (fun item => (item, if p item then 1 else 0)) items).2 = items.countP p := by
  induction items with
  | nil => rfl
  | cons item rest ih => simp [Change.onItems, List.countP_cons, ih, Nat.add_comm]

/-- The items of a kind are as many as the ways to them. -/
theorem encard_items (p : Node → Bool) (items : List Node) :
    {way : List Step | ∃ (index : Nat) (item : Node), items[index]? = some item ∧ p item = true ∧
      way = [.item index]}.encard = items.countP p := by
  let own (item : Node) := {way : List Step | p item = true ∧ way = []}
  have hown : ∀ item ∈ items, (own item).encard = (if p item then 1 else 0 : Nat) := by
    intro item _
    cases h : p item <;> simp [own, h]
  have hcount := encard_throughItems (fun item => (item, if p item then 1 else 0)) hown 0
  rw [← onItems_indicator_snd, ← hcount]
  congr 1
  ext way
  constructor
  · rintro ⟨index, item, hitem, hp, rfl⟩
    exact ⟨index, item, [], hitem, ⟨hp, rfl⟩, by simp⟩
  · rintro ⟨index, item, _, hitem, ⟨hp, rfl⟩, rfl⟩
    exact ⟨index, item, hitem, hp, by simp⟩

/-- The ways to what is edited, if the nodes at some places are. -/
def editsAt (place : List Step → Prop) (edits : Node → Set (List Step)) (tree : Node) :
    Set (List Step) :=
  {way | ∃ front node rest, place front ∧ tree.reach? front = some node ∧ rest ∈ edits node ∧
    way = front ++ rest}

theorem editsAt_of_unreached {tree : Node}
    (hplace : ∀ way, place way → tree.reach? way = none) : editsAt place edits tree = ∅ := by
  refine Set.eq_empty_of_forall_notMem ?_
  rintro _ ⟨front, node, rest, hfront, hreach, -⟩
  simp [hplace front hfront] at hreach

/-- Edits that are made below keys only are those in the values of a mapping. -/
theorem editsAt_mapping (hplace : ∀ way, place way → ∃ key rest, way = .key key :: rest)
    (entries : Entries Node) :
    editsAt place edits (.mapping entries) =
      throughValues (fun key => editsAt (fun rest => place (.key key :: rest)) edits) entries := by
  ext way
  constructor
  · rintro ⟨front, node, rest, hfront, hreach, hrest, rfl⟩
    obtain ⟨key, later, rfl⟩ := hplace front hfront
    obtain ⟨value, hvalue, hlater⟩ := Option.bind_eq_some_iff.1 hreach
    exact ⟨key, value, later ++ rest, hvalue, ⟨later, node, rest, hfront, hlater, hrest, rfl⟩, rfl⟩
  · rintro ⟨key, value, _, hvalue, ⟨later, node, rest, hfront, hlater, hrest, rfl⟩, rfl⟩
    exact ⟨.key key :: later, node, rest, hfront, by simp [hvalue, hlater], hrest, rfl⟩

end Node

namespace Change
open Node
variable {place : List Step → Prop} {f : Node → Node} {edits : Node → Set (List Step)} {tree : Node}

/-- What comes of a counted change of a tree that changes the nodes at some places, each of them by
itself. -/
structure MadeAt (place : List Step → Prop) (f : Node → Node) (edits : Node → Set (List Step))
    (tree : Node) (outcome : Node × Nat) : Prop where
  there : ∀ way, place way → outcome.1.reach? way = (tree.reach? way).map f
  /-- What stands beside the places stays. -/
  beside : ∀ way, (∀ front, place front → Apart front way) →
    outcome.1.reach? way = tree.reach? way
  /-- The containers above the places keep their keys and their lengths. -/
  above : ∀ way, (∀ front, place front → ¬ front <+: way) →
    Option.Rel (Grown []) (tree.reach? way) (outcome.1.reach? way)
  counted : (editsAt place edits tree).encard = outcome.2

/-- A change of the whole tree is one of the node at its top. -/
theorem madeAt_top {outcome : Node × Nat} (hplace : ∀ way, place way ↔ way = [])
    (htree : outcome.1 = f tree) (hcount : (edits tree).encard = outcome.2) :
    MadeAt place f edits tree outcome where
  there way hway := by
    obtain rfl := (hplace way).1 hway
    simp [htree]
  beside way hway := absurd List.nil_prefix (hway [] ((hplace []).2 rfl)).1
  above way hway := absurd List.nil_prefix (hway [] ((hplace []).2 rfl))
  counted := by
    have hways : editsAt place edits tree = edits tree := by
      ext way
      simp [editsAt, hplace]
    rw [hways, hcount]

/-- Places that are not there are left alone. -/
theorem madeAt_of_unreached (hplace : ∀ way, place way → tree.reach? way = none) :
    MadeAt place f edits tree (keep tree) where
  there way hway := by
    show tree.reach? way = _
    rw [hplace way hway]
    rfl
  beside _ _ := rfl
  above way _ := rel_grown_refl (tree.reach? way)
  counted := by
    rw [editsAt_of_unreached hplace]
    simp [keep]

section Values
variable {change : String → Change Node}

theorem reach?_key_onValues (change : String → Change Node) (key : String) (rest : List Step)
    (tree : Node) :
    (inMapping (onValues change) tree).1.reach? (.key key :: rest) =
      (tree.field? key).bind fun value => (change key value).1.reach? rest := by
  cases tree with
  | scalar value => rfl
  | sequence items => rfl
  | mapping entries =>
    rw [inMapping_fst, onEntries_mapping, onValues_fst, reach?_key_mapping, Entries.get?_mapValues,
      Option.bind_map]
    rfl

theorem reach?_item_onValues (change : String → Change Node) (index : Nat) (rest : List Step)
    (tree : Node) :
    (inMapping (onValues change) tree).1.reach? (.item index :: rest) =
      tree.reach? (.item index :: rest) := by
  cases tree <;> rfl

theorem grown_onValues (change : String → Change Node) (tree : Node) :
    Grown [] tree (inMapping (onValues change) tree).1 := by
  cases tree with
  | scalar value => exact .refl _
  | sequence items => exact .refl _
  | mapping entries =>
    rw [inMapping_fst, onEntries_mapping, onValues_fst]
    exact .mapping (by rw [Entries.keys_mapValues, List.append_nil])

theorem inMapping_onValues_eq_self (htree : tree.WellFormed)
    (h : ∀ key value, tree.field? key = some value → (change key value).1 = value) :
    (inMapping (onValues change) tree).1 = tree := by
  rw [inMapping_fst]
  refine onEntries_eq_self fun entries hentries => ?_
  subst hentries
  rw [onValues_fst]
  refine Entries.mapValues_eq_self_iff.2 fun entry hmem => h entry.1 entry.2 ?_
  exact Entries.get?_of_mem (wellFormed_mapping.1 htree).1 hmem

theorem encard_editsAt_onValues (htree : tree.WellFormed)
    (hplace : ∀ way, place way → ∃ key rest, way = .key key :: rest)
    (h : ∀ key value, tree.field? key = some value →
      (editsAt (fun rest => place (.key key :: rest)) edits value).encard = (change key value).2) :
    (editsAt place edits tree).encard = (inMapping (onValues change) tree).2 := by
  have hnone (hfield : ∀ key, tree.field? key = none) : editsAt place edits tree = ∅ := by
    refine editsAt_of_unreached fun way hway => ?_
    obtain ⟨key, rest, rfl⟩ := hplace way hway
    rw [reach?_key, hfield, Option.bind_none]
  cases tree with
  | scalar value =>
    rw [hnone fun _ => rfl]
    exact Set.encard_empty
  | sequence items =>
    rw [hnone fun _ => rfl]
    exact Set.encard_empty
  | mapping entries =>
    obtain ⟨hkeys, -⟩ := wellFormed_mapping.1 htree
    rw [editsAt_mapping hplace]
    exact encard_throughValues change hkeys fun entry hmem =>
      h entry.1 entry.2 (Entries.get?_of_mem hkeys hmem)

/-- A change of the values of a mapping is made at the places below its keys. -/
theorem MadeAt.onValues (htree : tree.WellFormed)
    (hplace : ∀ way, place way → ∃ key rest, way = .key key :: rest)
    (h : ∀ key value, tree.field? key = some value →
      MadeAt (fun rest => place (.key key :: rest)) f edits value (change key value)) :
    MadeAt place f edits tree (inMapping (Change.onValues change) tree) where
  there way hway := by
    obtain ⟨key, rest, rfl⟩ := hplace way hway
    rw [reach?_key_onValues, reach?_key]
    cases hvalue : tree.field? key with
    | none => rfl
    | some value => exact (h key value hvalue).there rest hway
  beside way hway := by
    cases way with
    | nil =>
      -- Nothing stands beside the whole tree, so there are no places at all.
      have hnone : ∀ front, ¬ place front := fun front hfront =>
        (hway front hfront).2 List.nil_prefix
      have hsame := inMapping_onValues_eq_self htree fun key value hvalue => by
        simpa using (h key value hvalue).beside [] fun front hfront => absurd hfront (hnone _)
      rw [hsame]
    | cons step rest =>
      cases step with
      | item index => exact reach?_item_onValues change index rest tree
      | key key =>
        rw [reach?_key_onValues, reach?_key]
        cases hvalue : tree.field? key with
        | none => rfl
        | some value =>
          exact (h key value hvalue).beside rest fun front hfront => (hway _ hfront).tail
  above way hway := by
    cases way with
    | nil =>
      rw [reach?_nil, reach?_nil]
      exact .some (grown_onValues change tree)
    | cons step rest =>
      cases step with
      | item index =>
        rw [reach?_item_onValues]
        exact rel_grown_refl _
      | key key =>
        rw [reach?_key_onValues, reach?_key]
        cases hvalue : tree.field? key with
        | none => exact .none
        | some value =>
          refine (h key value hvalue).above rest fun front hfront habove => hway _ hfront ?_
          exact List.cons_prefix_cons.2 ⟨rfl, habove⟩
  counted := encard_editsAt_onValues htree hplace fun key value hvalue =>
    (h key value hvalue).counted

end Values

/-- A change under one key is made at the places below it. -/
theorem MadeAt.atField {key : String} {change : Change Node} (htree : tree.WellFormed)
    (hplace : ∀ way, place way → ∃ rest, way = .key key :: rest)
    (h : ∀ value, tree.field? key = some value →
      MadeAt (fun rest => place (.key key :: rest)) f edits value (change value)) :
    MadeAt place f edits tree (Change.atField key change tree) := by
  have hvalues : Change.atField key change tree =
      inMapping (Change.onValues fun name => if name = key then change else keep) tree := by
    cases tree with
    | scalar value => rfl
    | sequence items => rfl
    | mapping entries =>
      simp only [Change.atField, inMapping, atKey_eq_onValues (wellFormed_mapping.1 htree).1]
  rw [hvalues]
  refine .onValues htree (fun way hway => ?_) fun name value hvalue => ?_
  · obtain ⟨rest, rfl⟩ := hplace way hway
    exact ⟨key, rest, rfl⟩
  · by_cases hname : name = key
    · subst hname
      rw [if_pos rfl]
      exact h value hvalue
    · rw [if_neg hname]
      refine madeAt_of_unreached fun rest hrest => ?_
      obtain ⟨later, hway⟩ := hplace _ hrest
      exact absurd (Step.key.inj (List.head_eq_of_cons_eq hway)) hname

end Change
end ApiTidy
