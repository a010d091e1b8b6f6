import Mathlib.Data.List.Forall2
import Mathlib.Data.List.Perm.Subperm
import ApiTidy.Proofs.References

/-!
Trees that are equal up to the order of keys. The comparison goes through the keys of one mapping
and counts those of the other; where no key occurs twice, it says of every key that both mappings
have equal values under it or none. So the two trees cannot be told apart by keys, and they hold the
same references, each as often.
-/
namespace ApiTidy

namespace Entries
variable {α β γ : Type} {R : α → β → Prop} {first : Entries α} {second : Entries β}

/-- Under each key there are related values in both lists, or none in either. -/
def Agree (R : α → β → Prop) (first : Entries α) (second : Entries β) : Prop :=
  ∀ key, Option.Rel R (get? first key) (get? second key)

/-- Related optional values are both there or both missing. -/
theorem rel_cases {x : Option α} {y : Option β} (h : Option.Rel R x y) :
    (∃ a b, x = some a ∧ y = some b ∧ R a b) ∨ (x = none ∧ y = none) := by
  cases h with
  | some hab => exact .inl ⟨_, _, rfl, rfl, hab⟩
  | none => exact .inr ⟨rfl, rfl⟩

theorem rel_comp {S : β → γ → Prop} {T : α → γ → Prop} {x : Option α} {y : Option β} {z : Option γ}
    (h : Option.Rel R x y) (hnext : Option.Rel S y z) (hT : ∀ a b c, R a b → S b c → T a c) :
    Option.Rel T x z := by
  cases h with
  | none =>
    cases hnext
    exact .none
  | some hab =>
    cases hnext with
    | some hbc => exact .some (hT _ _ _ hab hbc)

theorem Agree.mem_keys_iff (h : Agree R first second) {key : String} :
    key ∈ keys first ↔ key ∈ keys second := by
  rw [← get?_isSome_iff, ← get?_isSome_iff]
  obtain ⟨x, y, hx, hy, -⟩ | ⟨hx, hy⟩ := rel_cases (h key) <;> simp [hx, hy]

theorem Agree.keys_perm (h : Agree R first second) (hfirst : Distinct first)
    (hsecond : Distinct second) : (keys first).Perm (keys second) :=
  (List.perm_ext_iff_of_nodup hfirst hsecond).2 fun _ => h.mem_keys_iff

theorem Agree.flip (h : Agree R first second) : Agree (fun y x => R x y) second first := by
  intro key
  obtain ⟨x, y, hx, hy, hxy⟩ | ⟨hx, hy⟩ := rel_cases (h key) <;> rw [hx, hy]
  · exact .some hxy
  · exact .none

theorem Agree.comp {S : β → γ → Prop} {T : α → γ → Prop} {third : Entries γ}
    (h : Agree R first second) (hnext : Agree S second third)
    (hT : ∀ x y z, R x y → S y z → T x z) : Agree T first third :=
  fun key => rel_comp (h key) (hnext key) hT

theorem Agree.filter (h : Agree R first second) (p : String → Bool) :
    Agree R (first.filter (p ·.1)) (second.filter (p ·.1)) := by
  intro key
  rw [get?_filter, get?_filter]
  split
  · exact h key
  · exact .none

theorem Agree.modify (h : Agree R first second) {f : α → α} {g : β → β}
    (hfg : ∀ x y, R x y → R (f x) (g y)) (key : String) :
    Agree R (modify f key first) (modify g key second) := by
  intro other
  by_cases hk : other = key
  · subst hk
    rw [get?_modify_self, get?_modify_self]
    obtain ⟨x, y, hx, hy, hxy⟩ | ⟨hx, hy⟩ := rel_cases (h other) <;> rw [hx, hy]
    · exact .some (hfg x y hxy)
    · exact .none
  · rw [get?_modify_of_ne hk, get?_modify_of_ne hk]
    exact h other

/-- Lists that agree yield the same, in another order, if related values do. -/
theorem Agree.flatMap_perm (h : Agree R first second) (hfirst : Distinct first)
    (hsecond : Distinct second) {f : α → List γ} {g : β → List γ}
    (hfg : ∀ entry ∈ first, ∀ value, R entry.2 value → (f entry.2).Perm (g value)) :
    (first.flatMap (f ·.2)).Perm (second.flatMap (g ·.2)) := by
  induction first generalizing second with
  | nil =>
    have hnone : keys second = [] := (h.keys_perm hfirst hsecond).symm.eq_nil
    rw [List.map_eq_nil_iff.1 hnone]
    rfl
  | cons entry rest ih =>
    obtain ⟨key, value⟩ := entry
    obtain ⟨hnew, hrest⟩ := List.nodup_cons.1 hfirst
    obtain ⟨hentry, hvalues⟩ := List.forall_mem_cons.1 hfg
    have hgone : get? rest key = none := get?_eq_none_iff.2 hnew
    have htail : Agree R rest (erase second key) := by
      intro later
      by_cases hk : later = key
      · subst hk
        rw [hgone, get?_erase_self hsecond]
        exact .none
      · have hlater := h later
        rw [get?_cons, if_neg (Ne.symm hk)] at hlater
        rwa [get?_erase_of_ne hk]
    obtain ⟨x, other, hx, hother, hrelated⟩ | ⟨hx, -⟩ := rel_cases (h key)
    · obtain rfl : value = x := by simpa using hx
      have hmoved := (perm_cons_erase hother).flatMap_right (g ·.2)
      have hothers := ih htail hrest (hsecond.erase key) hvalues
      exact ((hentry other hrelated).append hothers).trans hmoved.symm
    · simp at hx

end Entries

theorem Scalar.same_self (value : Scalar) : value.same value = true := by
  cases value with
  | number value => cases value <;> simp [same, Number.same, Binary64.same]
  | null => rfl
  | bool value => simp [same]
  | string value => simp [same]

theorem Binary64.same_comm (x y : Binary64) : x.same y = y.same x := by
  simp only [same, eq_comm, Bool.and_comm]

theorem Number.same_comm (x y : Number) : x.same y = y.same x := by
  cases x <;> cases y <;> simp only [same, eq_comm, Binary64.same_comm]

theorem Scalar.same_comm (x y : Scalar) : x.same y = y.same x := by
  cases x <;> cases y <;> simp only [same, eq_comm, Number.same_comm]

theorem Binary64.same_trans {x y z : Binary64} (h : x.same y = true) (hnext : y.same z = true) :
    x.same z = true := by
  simp only [same, Bool.or_eq_true, decide_eq_true_eq, Bool.and_eq_true] at *
  rcases h with rfl | ⟨hx, hy⟩
  · exact hnext
  · rcases hnext with rfl | ⟨-, hz⟩
    · exact .inr ⟨hx, hy⟩
    · exact .inr ⟨hx, hz⟩

theorem Number.same_trans {x y z : Number} (h : x.same y = true) (hnext : y.same z = true) :
    x.same z = true := by
  cases x <;> cases y <;> cases z <;> simp only [same, Bool.false_eq_true, decide_eq_true_eq] at *
  · exact h.trans hnext
  · exact Binary64.same_trans h hnext

theorem Scalar.same_trans {x y z : Scalar} (h : x.same y = true) (hnext : y.same z = true) :
    x.same z = true := by
  cases x <;> cases y <;> simp only [same, Bool.false_eq_true, decide_eq_true_eq] at h
  · exact hnext
  · exact h ▸ hnext
  · cases z <;> simp only [same, Bool.false_eq_true] at hnext ⊢
    exact Number.same_trans h hnext
  · exact h ▸ hnext

namespace Node

theorem sameEntries_iff {first second : Entries Node} :
    sameEntries first second = true ↔ ∀ entry ∈ first,
      ∃ value, Entries.get? second entry.1 = some value ∧ entry.2.same value = true := by
  induction first with
  | nil => simp [sameEntries]
  | cons entry rest ih =>
    rw [sameEntries, Bool.and_eq_true, ih, List.forall_mem_cons]
    cases Entries.get? second entry.1 <;> simp

/-- Two trees that are equal up to the order of keys, of which none occurs twice. -/
structure Alike (first second : Node) : Prop where
  left : first.WellFormed
  right : second.WellFormed
  same : first.same second = true

theorem alike_sequence_cons {x y : Node} {xs ys : List Node} :
    Alike (.sequence (x :: xs)) (.sequence (y :: ys)) ↔
      Alike x y ∧ Alike (.sequence xs) (.sequence ys) := by
  constructor
  · rintro ⟨⟨hx, hxs⟩, ⟨hy, hys⟩, hsame⟩
    obtain ⟨hhead, htail⟩ := Bool.and_eq_true_iff.1 hsame
    exact ⟨⟨hx, hy, hhead⟩, ⟨hxs, hys, htail⟩⟩
  · rintro ⟨⟨hx, hy, hhead⟩, ⟨hxs, hys, htail⟩⟩
    exact ⟨⟨hx, hxs⟩, ⟨hy, hys⟩, Bool.and_eq_true_iff.2 ⟨hhead, htail⟩⟩

theorem alike_sequence {first second : List Node} :
    Alike (.sequence first) (.sequence second) ↔ List.Forall₂ Alike first second := by
  induction first generalizing second with
  | nil =>
    cases second with
    | nil => exact ⟨fun _ => .nil, fun _ => ⟨trivial, trivial, rfl⟩⟩
    | cons y ys => exact ⟨fun h => absurd h.same (by simp [Node.same, sameItems]), nofun⟩
  | cons x xs ih =>
    cases second with
    | nil => exact ⟨fun h => absurd h.same (by simp [Node.same, sameItems]), nofun⟩
    | cons y ys => rw [alike_sequence_cons, List.forall₂_cons, ih]

/-- Mappings without repeated keys are equal if their keys are and the values under each are. -/
theorem alike_mapping {first second : Entries Node} :
    Alike (.mapping first) (.mapping second) ↔
      Entries.Distinct first ∧ Entries.Distinct second ∧ Entries.Agree Alike first second := by
  constructor
  · rintro ⟨hleft, hright, hsame⟩
    obtain ⟨hfirst, hfirstValues⟩ := wellFormed_mapping.1 hleft
    obtain ⟨hsecond, hsecondValues⟩ := wellFormed_mapping.1 hright
    obtain ⟨hlength, hentries⟩ := Bool.and_eq_true_iff.1 hsame
    have hvalues := sameEntries_iff.1 hentries
    have hsubset : Entries.keys first ⊆ Entries.keys second := by
      intro key hkey
      obtain ⟨entry, hmem, rfl⟩ := List.mem_map.1 hkey
      obtain ⟨value, hvalue, -⟩ := hvalues entry hmem
      exact Entries.get?_isSome_iff.1 (by simp [hvalue])
    -- as there are as many keys in the second mapping, it has no others
    have hkeys : (Entries.keys first).Perm (Entries.keys second) := by
      refine (List.subperm_of_subset hfirst hsubset).perm_of_length_le ?_
      have hle : second.length ≤ first.length := Nat.le_of_eq (of_decide_eq_true hlength).symm
      simpa [Entries.keys] using hle
    refine ⟨hfirst, hsecond, fun key => ?_⟩
    cases hget : Entries.get? first key with
    | some value =>
      have hmem := Entries.mem_of_get? hget
      obtain ⟨other, hother, hequal⟩ := hvalues _ hmem
      rw [hother]
      exact .some ⟨hfirstValues _ hmem, hsecondValues _ (Entries.mem_of_get? hother), hequal⟩
    | none =>
      have hgone : Entries.get? second key = none := by
        rw [Entries.get?_eq_none_iff, ← hkeys.mem_iff]
        exact Entries.get?_eq_none_iff.1 hget
      rw [hgone]
      exact .none
  · rintro ⟨hfirst, hsecond, hagree⟩
    have hvalue : ∀ entry ∈ first, ∃ value,
        Entries.get? second entry.1 = some value ∧ Alike entry.2 value := by
      intro entry hmem
      have hentry := Entries.get?_of_mem hfirst hmem
      obtain ⟨x, y, hx, hy, hxy⟩ | ⟨hx, -⟩ := Entries.rel_cases (hagree entry.1)
      · rw [hentry] at hx
        exact ⟨y, hy, Option.some.inj hx ▸ hxy⟩
      · simp [hentry] at hx
    have hother : ∀ entry ∈ second, entry.2.WellFormed := by
      intro entry hmem
      have hentry := Entries.get?_of_mem hsecond hmem
      obtain ⟨x, y, -, hy, hxy⟩ | ⟨-, hy⟩ := Entries.rel_cases (hagree entry.1)
      · rw [hentry] at hy
        exact Option.some.inj hy ▸ hxy.right
      · simp [hentry] at hy
    refine ⟨wellFormed_mapping.2 ⟨hfirst, fun entry hmem => ?_⟩,
      wellFormed_mapping.2 ⟨hsecond, hother⟩, Bool.and_eq_true_iff.2 ⟨?_, ?_⟩⟩
    · obtain ⟨value, -, h⟩ := hvalue entry hmem
      exact h.left
    · have hlength := (hagree.keys_perm hfirst hsecond).length_eq
      simpa [Entries.keys] using hlength
    · refine sameEntries_iff.2 fun entry hmem => ?_
      obtain ⟨value, hget, h⟩ := hvalue entry hmem
      exact ⟨value, hget, h.same⟩

/-- Every tree in which no key occurs twice is equal to itself. -/
theorem Alike.refl {node : Node} (h : node.WellFormed) : Alike node node := by
  induction node using induct with
  | scalar value => exact ⟨trivial, trivial, value.same_self⟩
  | sequence items ih =>
    have hitems := wellFormed_sequence.1 h
    exact alike_sequence.2 (List.forall₂_same.2 fun item hmem => ih item hmem (hitems item hmem))
  | mapping entries ih =>
    obtain ⟨hkeys, hvalues⟩ := wellFormed_mapping.1 h
    refine alike_mapping.2 ⟨hkeys, hkeys, fun key => ?_⟩
    cases hget : Entries.get? entries key with
    | none => exact .none
    | some value =>
      have hmem := Entries.mem_of_get? hget
      exact .some (ih _ hmem (hvalues _ hmem))

/-- Mappings with the same entries are equal, in whatever order. -/
theorem alike_of_perm {first second : Entries Node} (h : (Node.mapping first).WellFormed)
    (hperm : first.Perm second) : Alike (.mapping first) (.mapping second) := by
  obtain ⟨hkeys, hvalues⟩ := wellFormed_mapping.1 h
  have hother : Entries.Distinct second := (hperm.map _).nodup hkeys
  refine alike_mapping.2 ⟨hkeys, hother, fun key => ?_⟩
  cases hget : Entries.get? first key with
  | none =>
    have hgone : Entries.get? second key = none := by
      rw [Entries.get?_eq_none_iff] at hget ⊢
      exact fun hmem => hget ((hperm.map _).mem_iff.2 hmem)
    rw [hgone]
    exact .none
  | some value =>
    have hmem := Entries.mem_of_get? hget
    rw [Entries.get?_of_mem hother (hperm.mem_iff.1 hmem)]
    exact .some (.refl (hvalues _ hmem))

/-- What is equal to a scalar is a scalar. -/
theorem Alike.exists_scalar {value : Scalar} {second : Node} (h : Alike (.scalar value) second) :
    ∃ other, second = .scalar other ∧ value.same other = true := by
  have hsame := h.same
  cases second with
  | scalar other => exact ⟨other, rfl, hsame⟩
  | sequence items => simp [Node.same] at hsame
  | mapping entries => simp [Node.same] at hsame

/-- What is equal to a sequence is a sequence of items that are equal place by place. -/
theorem Alike.exists_sequence {items : List Node} {second : Node}
    (h : Alike (.sequence items) second) :
    ∃ others, second = .sequence others ∧ List.Forall₂ Alike items others := by
  have hsame := h.same
  cases second with
  | scalar value => simp [Node.same] at hsame
  | sequence others => exact ⟨others, rfl, alike_sequence.1 h⟩
  | mapping entries => simp [Node.same] at hsame

/-- What is equal to a mapping is a mapping of equal values under the same keys. -/
theorem Alike.exists_mapping {entries : Entries Node} {second : Node}
    (h : Alike (.mapping entries) second) :
    ∃ others, second = .mapping others ∧ Entries.Distinct entries ∧ Entries.Distinct others ∧
      Entries.Agree Alike entries others := by
  have hsame := h.same
  cases second with
  | scalar value => simp [Node.same] at hsame
  | sequence items => simp [Node.same] at hsame
  | mapping others => exact ⟨others, rfl, alike_mapping.1 h⟩

/-- Equal trees are of one shape, with equal parts. -/
theorem Alike.cases {first second : Node} (h : Alike first second) :
    (∃ x y, first = .scalar x ∧ second = .scalar y ∧ x.same y = true) ∨
      (∃ xs ys, first = .sequence xs ∧ second = .sequence ys ∧ List.Forall₂ Alike xs ys) ∨
      ∃ xs ys, first = .mapping xs ∧ second = .mapping ys ∧
        Entries.Distinct xs ∧ Entries.Distinct ys ∧ Entries.Agree Alike xs ys := by
  cases first with
  | scalar x => exact .inl ⟨x, h.exists_scalar.imp fun _ hy => ⟨rfl, hy⟩⟩
  | sequence xs => exact .inr (.inl ⟨xs, h.exists_sequence.imp fun _ hys => ⟨rfl, hys⟩⟩)
  | mapping xs => exact .inr (.inr ⟨xs, h.exists_mapping.imp fun _ hys => ⟨rfl, hys⟩⟩)

/-- Induction over two equal trees at once: their shapes are the same, so that a relation of all
items or values is one of the nodes that hold them. -/
@[elab_as_elim]
theorem Alike.induct {motive : Node → Node → Prop}
    (scalar : ∀ x y : Scalar, x.same y = true → motive (.scalar x) (.scalar y))
    (sequence : ∀ xs ys, List.Forall₂ motive xs ys → motive (.sequence xs) (.sequence ys))
    (mapping : ∀ xs ys, Alike (.mapping xs) (.mapping ys) → Entries.Agree motive xs ys →
      motive (.mapping xs) (.mapping ys))
    {first second : Node} (h : Alike first second) : motive first second := by
  induction first using Node.induct generalizing second with
  | scalar value =>
    obtain ⟨other, rfl, hsame⟩ := h.exists_scalar
    exact scalar value other hsame
  | sequence items ih =>
    obtain ⟨others, rfl, hitems⟩ := h.exists_sequence
    refine sequence items others ?_
    clear h
    induction hitems with
    | nil => exact .nil
    | cons hitem _ ihRest =>
      obtain ⟨hfirst, hothers⟩ := List.forall_mem_cons.1 ih
      exact .cons (hfirst hitem) (ihRest hothers)
  | mapping entries ih =>
    obtain ⟨others, rfl, -, -, hagree⟩ := h.exists_mapping
    refine mapping entries others h fun key => ?_
    obtain ⟨x, y, hx, hy, hxy⟩ | ⟨hx, hy⟩ := Entries.rel_cases (hagree key) <;> rw [hx, hy]
    · exact .some (ih _ (Entries.mem_of_get? hx) hxy)
    · exact .none

theorem Alike.string?_eq {first second : Node} (h : Alike first second) :
    first.string? = second.string? := by
  obtain ⟨x, y, rfl, rfl, hxy⟩ | ⟨xs, ys, rfl, rfl, -⟩ | ⟨xs, ys, rfl, rfl, -⟩ := h.cases
  · cases x <;> cases y <;> simp_all [Scalar.same, string?]
  · rfl
  · rfl

theorem Alike.field? {first second : Node} (h : Alike first second) (key : String) :
    Option.Rel Alike (first.field? key) (second.field? key) := by
  obtain ⟨x, y, rfl, rfl, -⟩ | ⟨xs, ys, rfl, rfl, -⟩ | ⟨xs, ys, rfl, rfl, -, -, hagree⟩ := h.cases
  · exact .none
  · exact .none
  · exact hagree key

/-- Related lists have related items at each place. -/
theorem rel_getElem? {α β : Type} {R : α → β → Prop} {xs : List α} {ys : List β}
    (h : List.Forall₂ R xs ys) (index : Nat) : Option.Rel R xs[index]? ys[index]? := by
  induction h generalizing index with
  | nil => exact .none
  | cons hfirst _ ih =>
    cases index with
    | zero => exact .some hfirst
    | succ index => exact ih index

/-- Relations of items are composed along lists. -/
theorem forall₂_comp {α β γ : Type} {R : α → β → Prop} {S : β → γ → Prop} {T : α → γ → Prop}
    {xs : List α} {ys : List β} {zs : List γ} (h : List.Forall₂ R xs ys)
    (hnext : List.Forall₂ S ys zs) (hT : ∀ x y z, R x y → S y z → T x z) :
    List.Forall₂ T xs zs := by
  induction h generalizing zs with
  | nil =>
    cases hnext
    exact .nil
  | cons hfirst _ ih =>
    cases hnext with
    | cons hsecond hrest => exact .cons (hT _ _ _ hfirst hsecond) (ih hrest)

theorem Alike.symm {first second : Node} (h : Alike first second) : Alike second first := by
  refine Alike.induct ?scalar ?sequence ?mapping h
  case scalar => exact fun x y hsame => ⟨trivial, trivial, (Scalar.same_comm y x).trans hsame⟩
  case sequence => exact fun xs ys hitems => alike_sequence.2 hitems.flip
  case mapping =>
    intro xs ys h hagree
    obtain ⟨hfirst, hsecond, -⟩ := alike_mapping.1 h
    exact alike_mapping.2 ⟨hsecond, hfirst, hagree.flip⟩

theorem Alike.trans {first second third : Node} (h : Alike first second)
    (hnext : Alike second third) : Alike first third := by
  suffices hall : ∀ third, Alike second third → Alike first third from hall third hnext
  refine Alike.induct ?scalar ?sequence ?mapping h
  case scalar =>
    intro x y hsame third hnext
    obtain ⟨z, rfl, hother⟩ := hnext.exists_scalar
    exact ⟨trivial, trivial, Scalar.same_trans hsame hother⟩
  case sequence =>
    intro xs ys hitems third hnext
    obtain ⟨zs, rfl, hothers⟩ := hnext.exists_sequence
    exact alike_sequence.2 (forall₂_comp hitems hothers fun _ _ z hxy => hxy z)
  case mapping =>
    intro xs ys h hagree third hnext
    obtain ⟨zs, rfl, -, hthird, hothers⟩ := hnext.exists_mapping
    obtain ⟨hfirst, -, -⟩ := alike_mapping.1 h
    exact alike_mapping.2 ⟨hfirst, hthird, hagree.comp hothers fun _ _ z hxy => hxy z⟩

theorem Alike.refPointer?_eq {first second : Node} (h : Alike first second) :
    first.refPointer? = second.refPointer? := by
  rw [refPointer?, refPointer?]
  obtain ⟨x, y, hx, hy, hxy⟩ | ⟨hx, hy⟩ := Entries.rel_cases (h.field? refKey) <;> rw [hx, hy]
  exact hxy.string?_eq

theorem referencesEntries_eq_flatMap (entries : Entries Node) :
    referencesEntries entries = entries.flatMap (·.2.references) := by
  induction entries with
  | nil => rfl
  | cons entry rest ih => rw [referencesEntries, ih, List.flatMap_cons]

theorem referencesItems_eq_flatMap (items : List Node) :
    referencesItems items = items.flatMap references := by
  induction items with
  | nil => rfl
  | cons item rest ih => rw [referencesItems, ih, List.flatMap_cons]

/-- Equal trees hold the same references, each as often, if in another order. -/
theorem Alike.references_perm {first second : Node} (h : Alike first second) :
    first.references.Perm second.references := by
  refine Alike.induct ?scalar ?sequence ?mapping h
  case scalar => exact fun x y hsame => .nil
  case sequence =>
    intro xs ys hitems
    show (referencesItems xs).Perm (referencesItems ys)
    induction hitems with
    | nil => exact .nil
    | cons hitem _ ih => exact hitem.append ih
  case mapping =>
    intro xs ys h hagree
    obtain ⟨hfirst, hsecond, -⟩ := alike_mapping.1 h
    have hown : Reference.ofNode? (.mapping xs) = Reference.ofNode? (.mapping ys) :=
      congrArg (·.bind Reference.parse?) h.refPointer?_eq
    have hvalues := hagree.flatMap_perm hfirst hsecond fun _ _ _ hvalue => hvalue
    rw [references, references, referencesEntries_eq_flatMap, referencesEntries_eq_flatMap, hown]
    exact hvalues.append_left _

theorem Alike.modifyField {first second : Node} (h : Alike first second) {f g : Node → Node}
    (hfg : ∀ x y, Alike x y → Alike (f x) (g y)) (key : String) :
    Alike (first.modifyField f key) (second.modifyField g key) := by
  obtain ⟨x, y, rfl, rfl, -⟩ | ⟨xs, ys, rfl, rfl, -⟩ | ⟨xs, ys, rfl, rfl, hxs, hys, hagree⟩ :=
    h.cases
  · exact h
  · exact h
  · refine alike_mapping.2 ⟨?_, ?_, hagree.modify hfg key⟩
    · rwa [Entries.Distinct, Entries.keys_modify]
    · rwa [Entries.Distinct, Entries.keys_modify]

/-- Which entries are kept is up to their keys, so equal trees stay equal. -/
theorem Alike.onEntries_filter {first second : Node} (h : Alike first second)
    (p : String → Bool) :
    Alike (first.onEntries fun entries => entries.filter (p ·.1))
      (second.onEntries fun entries => entries.filter (p ·.1)) := by
  obtain ⟨x, y, rfl, rfl, -⟩ | ⟨xs, ys, rfl, rfl, -⟩ | ⟨xs, ys, rfl, rfl, hxs, hys, hagree⟩ :=
    h.cases
  · exact h
  · exact h
  · refine alike_mapping.2 ⟨?_, ?_, hagree.filter p⟩
    · exact hxs.sublist (List.filter_sublist.map _)
    · exact hys.sublist (List.filter_sublist.map _)

end Node
end ApiTidy
