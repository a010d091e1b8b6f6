import ApiTidy.Proofs.Address.Way

/-!
Deleting the node at an address. The container that the address leads into loses that child and no
other, and the order of the others stays. So the items after it in a sequence move down by one, and
everything else is found where it was. Deleting succeeds exactly where a lookup does, except at the
root.
-/
namespace ApiTidy

theorem Address.splitLast?_eq_some {address parent : Address} {last : String} :
    address.splitLast? = some (parent, last) ↔ address.segments = parent.segments ++ [last] := by
  unfold splitLast?
  constructor
  · intro h
    split at h
    next => simp at h
    next found hfound =>
      obtain ⟨rfl, rfl⟩ := Prod.mk.inj (Option.some.inj h)
      obtain ⟨front, hfront⟩ := List.getLast?_eq_some_iff.1 hfound
      simp [hfront]
  · intro h
    simp [h]

/-- Whether a step leads to a later item than another does. -/
def Step.Follows : Step → Step → Prop
  | .item later, .item index => index < later
  | _, _ => False

namespace Node
variable {address last : String} {node before after tree changed : Node} {step : Step}
  {front : List Step}

/-- A container loses the child that a step leads to. -/
inductive Lost (node : Node) : Step → Node → Node → Prop
  | entry {name : String} {front : Entries Node} (back : Entries Node) : name ∉ Entries.keys front →
      Lost node (.key name) (.mapping (front ++ (name, node) :: back)) (.mapping (front ++ back))
  | item (front back : List Node) :
      Lost node (.item front.length) (.sequence (front ++ node :: back)) (.sequence (front ++ back))

namespace Lost

theorem erase {entries : Entries Node} (h : Entries.get? entries last = some node) :
    Lost node (.key last) (.mapping entries) (.mapping (Entries.erase entries last)) := by
  obtain ⟨front, back, rfl, hnew⟩ := Entries.exists_split h
  rw [Entries.erase_split hnew]
  exact .entry back hnew

theorem eraseIdx {items : List Node} {index : Nat} (h : items[index]? = some node) :
    Lost node (.item index) (.sequence items) (.sequence (items.eraseIdx index)) := by
  obtain ⟨hlt, rfl⟩ := List.getElem?_eq_some_iff.1 h
  have hlost : Lost items[index] _ _ _ := .item (items.take index) (items.drop (index + 1))
  rwa [List.getElem_cons_drop, List.take_append_drop, ← List.eraseIdx_eq_take_drop_succ,
    List.length_take_of_le (Nat.le_of_lt hlt)] at hlost

/-- Children that are neither the lost one nor later items stay. -/
theorem reach?_cons (h : Lost node step before after) {first : Step} (hne : first ≠ step)
    (hfollows : ¬ first.Follows step) (rest : List Step) :
    after.reach? (first :: rest) = before.reach? (first :: rest) := by
  cases h with
  | @entry name front back hnew =>
    cases first with
    | item index => rfl
    | key other =>
      have hother : name ≠ other := fun heq => hne (by rw [heq])
      simp [Entries.get?_append, hother]
  | item front back =>
    cases first with
    | key name => rfl
    | item index =>
      have hlt : index < front.length := by
        have hindex : index ≠ front.length := fun heq => hne (by rw [heq])
        simp only [Step.Follows] at hfollows
        omega
      simp [List.getElem?_append_left hlt]

/-- The items after the lost one have moved down by one. -/
theorem reach?_later {index later : Nat} (h : Lost node (.item index) before after)
    (hle : index ≤ later) (rest : List Step) :
    after.reach? (.item later :: rest) = before.reach? (.item (later + 1) :: rest) := by
  cases h with
  | item front back =>
    have hnext : later + 1 - front.length = later - front.length + 1 := by omega
    simp [List.getElem?_append_right hle, List.getElem?_append_right (Nat.le_succ_of_le hle), hnext]

end Lost

/-- Any child can be lost. -/
theorem exists_lost {way : List Step} (h : Leads [last] way before node) :
    ∃ step after, way = [step] ∧ Lost node step before after := by
  obtain ⟨entries, rfl, rfl, hchild⟩ | ⟨items, index, rfl, rfl, -, hchild⟩ := h.step_cases
  · exact ⟨.key last, _, rfl, .erase hchild⟩
  · exact ⟨.item index, _, rfl, .eraseIdx hchild⟩

/-- What is taken out of a container is the child that the last segment leads to. -/
theorem exists_takeOut_eq_ok :
    (∃ position, takeOut address last before = .ok (node, position) after) ↔
      ∃ step, Leads [last] [step] before node ∧ Lost node step before after := by
  constructor
  · rintro ⟨position, h⟩
    cases before with
    | scalar value => simp [takeOut] at h
    | mapping entries =>
      simp only [takeOut] at h
      split at h
      next found index hfound _ =>
        obtain ⟨hanswer, rfl⟩ := EStateM.Result.ok.inj h
        obtain ⟨rfl, -⟩ := Prod.mk.inj hanswer
        exact ⟨.key last, .key hfound (leads_nil.2 ⟨rfl, rfl⟩), .erase hfound⟩
      next => simp at h
    | sequence items =>
      simp only [takeOut] at h
      split at h
      next => simp at h
      next index hplace =>
        obtain ⟨hanswer, rfl⟩ := EStateM.Result.ok.inj h
        obtain ⟨rfl, -⟩ := Prod.mk.inj hanswer
        have hitem : items[index.val]? = some (items.get index) := by simp
        exact ⟨.item index.val,
          .item (Address.index?_of_place hplace) hitem (leads_nil.2 ⟨rfl, rfl⟩), .eraseIdx hitem⟩
  · rintro ⟨step, hleads, hlost⟩
    cases hlost with
    | @entry name front back hnew =>
      obtain rfl : last = name := (List.forall₂_cons.1 hleads.spelled).1
      have hget : Entries.get? (front ++ (last, node) :: back) last = some node := by
        simpa using hleads.reached
      have hposition := Entries.position?_split hnew node back
      exact ⟨front.length, by simp only [takeOut, hget, hposition, Entries.erase_split hnew]⟩
    | item front back =>
      have hindex : Address.index? last = some front.length :=
        (List.forall₂_cons.1 hleads.spelled).1
      have hlt : front.length < (front ++ node :: back).length := by simp
      have hplace : Address.place address last _ = _ := Address.place_of_index? hindex hlt
      exact ⟨front.length, by simp [takeOut, hplace, List.eraseIdx_append_of_length_le]⟩

/-- Deleting answers with the node that was taken out, and not with its position. -/
theorem exists_detach_eq_ok :
    (∃ position, detach address tree = .ok (node, position) changed) ↔
      delete address tree = .ok node changed := by
  unfold delete
  split <;> simp_all

theorem detach_eq_error {fault : AddressError} :
    detach address tree = .error fault changed ↔ delete address tree = .error fault changed := by
  unfold delete
  split <;> simp_all

/-- Deleting takes a child out of the container that the segments but the last lead to. -/
theorem delete_eq_ok :
    delete address tree = .ok node changed ↔
      ∃ segments last front step before after,
        (Address.parse address).segments = segments ++ [last] ∧ Leads segments front tree before ∧
          Leads [last] [step] before node ∧ Lost node step before after ∧
          Replaced before after front tree changed := by
  rw [← exists_detach_eq_ok]
  constructor
  · rintro ⟨position, h⟩
    cases hsplit : (Address.parse address).splitLast? with
    | none =>
      simp only [detach, hsplit] at h
      exact absurd h Edit.throw_ne_ok
    | some parts =>
      obtain ⟨parent, last⟩ := parts
      simp only [detach, hsplit, Edit.mapError_eq_ok] at h
      obtain ⟨front, before, after, hfront, htake, hreplaced⟩ := editAlong_eq_ok.1 h
      obtain ⟨step, hlast, hlost⟩ := exists_takeOut_eq_ok.1 ⟨position, htake⟩
      exact ⟨parent.segments, last, front, step, before, after, Address.splitLast?_eq_some.1 hsplit,
        hfront, hlast, hlost, hreplaced⟩
  · rintro ⟨segments, last, front, step, before, after, hsegments, hfront, hlast, hlost, hreplaced⟩
    have hsplit : (Address.parse address).splitLast? = some (⟨segments⟩, last) :=
      Address.splitLast?_eq_some.2 hsegments
    obtain ⟨position, htake⟩ := exists_takeOut_eq_ok.2 ⟨step, hlast, hlost⟩
    refine ⟨position, ?_⟩
    simp only [detach, hsplit, Edit.mapError_eq_ok]
    exact editAlong_eq_ok.2 ⟨front, before, after, hfront, htake, hreplaced⟩

/-- Below the root, a node can be deleted exactly if a lookup finds it. -/
theorem exists_delete_eq_ok (h : address ≠ "") :
    (∃ changed, delete address tree = .ok node changed) ↔ tree.lookup address = .ok node := by
  constructor
  · rintro ⟨changed, hdelete⟩
    obtain ⟨_, _, front, step, _, _, hsegments, hfront, hlast, -, -⟩ := delete_eq_ok.1 hdelete
    exact follow_eq_ok.2 ⟨front ++ [step], hsegments ▸ hfront.append hlast⟩
  · intro hfound
    obtain ⟨way, hway⟩ := follow_eq_ok.1 hfound
    have hne : (Address.parse address).segments ≠ [] := fun hnil =>
      h (Address.segments_parse_eq_nil.1 hnil)
    obtain ⟨segments, last, hsegments⟩ := (List.eq_nil_or_concat _).resolve_left hne
    rw [List.concat_eq_append] at hsegments
    rw [hsegments] at hway
    obtain ⟨front, rest, before, rfl, hfront, hlast⟩ := hway.split
    obtain ⟨step, after, rfl, hlost⟩ := exists_lost hlast
    obtain ⟨changed, hreplaced⟩ := exists_replaced hfront.reached after
    exact ⟨changed, delete_eq_ok.2
      ⟨segments, last, front, step, before, after, hsegments, hfront, hlast, hlost, hreplaced⟩⟩

theorem delete_root (tree : Node) : delete "" tree = .error .root tree := by
  rfl

/-- Whether a way leads neither to a container above a lost child, nor to that child or a later item
of the same sequence, nor to something below these. -/
def Spared (front : List Step) (step : Step) (spot : List Step) : Prop :=
  ¬ spot <+: front ∧
    ∀ first rest, spot = front ++ first :: rest → first ≠ step ∧ ¬ first.Follows step

/-- What deleting the node at an address leaves. -/
structure DeletedAt (address : String) (node tree changed : Node) (front : List Step)
    (step : Step) : Prop where
  leads : Leads (Address.parse address).segments (front ++ [step]) tree node
  found : tree.lookup address = .ok node
  lost : ∃ before after, tree.reach? front = some before ∧ changed.reach? front = some after ∧
    Lost node step before after
  kept : ∀ other way found, Leads (Address.parse other).segments way tree found →
    Spared front step way → changed.lookup other = .ok found
  beside : ∀ spot, Spared front step spot → changed.reach? spot = tree.reach? spot
  moved : ∀ index later rest, step = .item index → index ≤ later →
    changed.reach? (front ++ .item later :: rest) = tree.reach? (front ++ .item (later + 1) :: rest)
  /-- The containers above keep their keys and their lengths. -/
  above : ∀ spot, spot <+: front → spot ≠ front → ∃ before after, tree.reach? spot = some before ∧
    changed.reach? spot = some after ∧ Grown [] before after

/-- Where a container is replaced by what a loss leaves of it, everything spared stays. -/
theorem Replaced.reach?_spared (h : Replaced before after front tree changed)
    (hlost : Lost node step before after) {spot : List Step} (hspared : Spared front step spot) :
    changed.reach? spot = tree.reach? spot := by
  obtain ⟨habove, hchild⟩ := hspared
  obtain hapart | ⟨hstarts, -⟩ | ⟨rest, rfl⟩ := way_cases spot front
  · exact h.reach?_beside hapart
  · exact absurd hstarts habove
  · cases rest with
    | nil => exact absurd (by simp) habove
    | cons first rest =>
      obtain ⟨hne, hfollows⟩ := hchild first rest rfl
      rw [h.reach?_append_new, h.reach?_append_old]
      exact hlost.reach?_cons hne hfollows rest

/-- Deleting removes exactly what a lookup finds, and never the root. -/
theorem delete_removes_found (address : String) (tree : Node) :
    delete "" tree = .error .root tree ∧
      (address ≠ "" → ∀ node,
        (∃ changed, delete address tree = .ok node changed) ↔ tree.lookup address = .ok node) ∧
      ∀ node changed, delete address tree = .ok node changed →
        ∃ front step, DeletedAt address node tree changed front step := by
  refine ⟨delete_root tree, fun hne node => exists_delete_eq_ok hne, fun node changed h => ?_⟩
  obtain ⟨segments, last, front, step, before, after, hsegments, hfront, hlast, hlost, hreplaced⟩ :=
    delete_eq_ok.1 h
  have hleads : Leads (Address.parse address).segments (front ++ [step]) tree node :=
    hsegments ▸ hfront.append hlast
  have hbeside : ∀ spot, Spared front step spot → changed.reach? spot = tree.reach? spot :=
    fun _ => hreplaced.reach?_spared hlost
  refine ⟨front, step, hleads, follow_eq_ok.2 ⟨_, hleads⟩,
    ⟨before, after, hreplaced.reach?_old, hreplaced.reach?_new, hlost⟩, ?kept, hbeside, ?moved,
    fun spot => hreplaced.grown_above⟩
  case kept =>
    intro other way found hother hspared
    exact follow_eq_ok.2 ⟨way, hother.spelled, (hbeside way hspared).trans hother.reached⟩
  case moved =>
    rintro index later rest rfl hle
    rw [hreplaced.reach?_append_new, hreplaced.reach?_append_old]
    exact hlost.reach?_later hle rest

/-- Items of a sequence, and a key after it. -/
def itemized : Node :=
  .mapping [("list", .sequence [.ofString "first", .mapping [("x", .null)]]), ("last", .null)]

theorem delete_removes_found_item :
    ∃ changed, delete "list.+0" itemized = .ok (.ofString "first") changed ∧
      DeletedAt "list.+0" (.ofString "first") itemized changed [.key "list"] (.item 0) ∧
      changed.lookup "last" = .ok .null ∧
      changed.reach? [.key "list", .item 0, .key "x"] = some .null := by
  obtain ⟨-, hfinds, hdeleted⟩ := delete_removes_found "list.+0" itemized
  obtain ⟨changed, hchanged⟩ := (hfinds (by decide) (.ofString "first")).2 rfl
  obtain ⟨front, step, h⟩ := hdeleted _ changed hchanged
  have htaken : Leads (Address.parse "list.+0").segments ([.key "list"] ++ [.item 0]) itemized
      (.ofString "first") := ⟨by decide, rfl⟩
  obtain ⟨rfl, hstep⟩ := List.append_inj' (h.leads.unique htaken).1 rfl
  obtain rfl : step = .item 0 := List.head_eq_of_cons_eq hstep
  have hother : Leads (Address.parse "last").segments [.key "last"] itemized .null :=
    ⟨by decide, rfl⟩
  have hspared : Spared [.key "list"] (.item 0) [.key "last"] :=
    ⟨by decide, fun first rest heq => by simp at heq⟩
  exact ⟨changed, hchanged, h, h.kept _ _ _ hother hspared,
    h.moved 0 0 [.key "x"] rfl (Nat.le_refl 0)⟩

end Node
end ApiTidy
