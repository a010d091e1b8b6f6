import ApiTidy.Proofs.Address.Deleting

/-!
Moving a node to another address is deleting it and then writing it; if either fails, the tree is as
it was. So the target leads through the tree that the node is gone from. Where a node is moved onto
itself, this matters for an item of a sequence: the items after it have moved down by one already,
so it takes the place of the next item, and for the last item there is no place left.
-/
namespace ApiTidy.Node
variable {address source target last : String} {node tree moved container : Node}
  {fault : AddressError} {segments : List String} {front : List Step}

theorem move_eq_ok :
    move source target tree = .ok () moved ↔
      ∃ node without, delete source tree = .ok node without ∧
        set target node without = .ok () moved := by
  constructor
  · intro h
    unfold move at h
    split at h
    next => simp at h
    next node index without hdetach =>
      split at h
      next answer changed hset =>
        obtain ⟨-, rfl⟩ := EStateM.Result.ok.inj h
        exact ⟨node, without, exists_detach_eq_ok.1 ⟨index, hdetach⟩, hset⟩
      next => simp at h
  · rintro ⟨node, without, hdelete, hset⟩
    obtain ⟨index, hdetach⟩ := exists_detach_eq_ok.2 hdelete
    simp [move, hdetach, hset]

/-- Whether deleting fails, or writing what was deleted. -/
inductive FailsFirst (source target : String) (tree : Node) (fault : AddressError) : Prop
  | delete {after : Node} : Node.delete source tree = .error fault after →
      FailsFirst source target tree fault
  | set {node without after : Node} : Node.delete source tree = .ok node without →
      Node.set target node without = .error fault after → FailsFirst source target tree fault

theorem exists_move_eq_error :
    (∃ after, move source target tree = .error fault after) ↔
      FailsFirst source target tree fault := by
  constructor
  · rintro ⟨after, h⟩
    unfold move at h
    split at h
    next cause changed hdetach =>
      obtain ⟨rfl, -⟩ := EStateM.Result.error.inj h
      exact .delete (detach_eq_error.1 hdetach)
    next node index without hdetach =>
      split at h
      next => simp at h
      next cause changed hset =>
        obtain ⟨rfl, -⟩ := EStateM.Result.error.inj h
        exact .set (exists_detach_eq_ok.1 ⟨index, hdetach⟩) hset
  · intro h
    cases h with
    | delete hdelete => simp [move, detach_eq_error.2 hdelete]
    | set hdelete hset =>
      obtain ⟨index, hdetach⟩ := exists_detach_eq_ok.2 hdelete
      simp [move, hdetach, hset]

/-- A move that fails leaves the tree, with the failure of the first step that fails. -/
theorem move_eq_error :
    move source target tree = .error fault moved ↔
      moved = tree ∧ FailsFirst source target tree fault := by
  rw [← exists_move_eq_error]
  constructor
  · exact fun h => ⟨move_atomic source target h, moved, h⟩
  · rintro ⟨rfl, after, h⟩
    rwa [move_atomic source target h] at h

/-- Moving a node is deleting it and writing it at the target. -/
theorem move_deletes_then_sets (source target : String) (tree : Node) :
    (∀ moved, move source target tree = .ok () moved ↔
        ∃ node without, delete source tree = .ok node without ∧
          set target node without = .ok () moved) ∧
      (∀ moved, move source target tree = .ok () moved →
        ∃ node, tree.lookup source = .ok node ∧ moved.lookup target = .ok node) ∧
      ∀ fault after, move source target tree = .error fault after ↔
        after = tree ∧ FailsFirst source target tree fault := by
  refine ⟨fun moved => move_eq_ok, fun moved h => ?_, fun fault after => move_eq_error⟩
  obtain ⟨node, without, hdelete, hset⟩ := move_eq_ok.1 h
  have hsource : source ≠ "" := by
    rintro rfl
    rw [delete_root] at hdelete
    simp at hdelete
  exact ⟨node, (exists_delete_eq_ok hsource).1 ⟨without, hdelete⟩, lookup_set hset⟩

/-- A schema with a list of further ones. -/
def branched : Node :=
  .mapping [("schema", .mapping [("oneOf", .sequence
    [.mapping [("type", .ofString "string")], .ofString "second", .ofString "third"])])]

/-- A node may be moved to one above it, and to an item that moves down before. -/
theorem move_deletes_then_sets_branched :
    (∃ moved, move "schema.oneOf.0" "schema" branched = .ok () moved ∧
      ∃ node, branched.lookup "schema.oneOf.0" = .ok node ∧ moved.lookup "schema" = .ok node) ∧
    (∃ moved, move "schema.oneOf.0" "schema.oneOf.1" branched = .ok () moved ∧
      moved.lookup "schema.oneOf.0" = .ok (.ofString "second")) ∧
    ∃ fault, move "schema.oneOf.0" "schema.oneOf.2" branched = .error fault branched := by
  obtain ⟨-, hfound, -⟩ := move_deletes_then_sets "schema.oneOf.0" "schema" branched
  obtain ⟨hsteps, -, -⟩ := move_deletes_then_sets "schema.oneOf.0" "schema.oneOf.1" branched
  obtain ⟨-, -, hfails⟩ := move_deletes_then_sets "schema.oneOf.0" "schema.oneOf.2" branched
  have hmoved : ∃ moved, move "schema.oneOf.0" "schema" branched = .ok () moved := ⟨_, rfl⟩
  obtain ⟨moved, h⟩ := hmoved
  exact ⟨⟨moved, h, hfound moved h⟩, ⟨_, (hsteps _).2 ⟨_, _, rfl, rfl⟩, rfl⟩,
    _, (hfails _ _).2 ⟨rfl, .set rfl rfl⟩⟩

/-- A container found before a last segment is written into. -/
theorem exists_set_eq_ok {value new : Node}
    (hsegments : (Address.parse address).segments = segments ++ [last])
    (hleads : Leads segments front tree container)
    (hplace : place address value [last] container = .ok () new) :
    ∃ written, set address value tree = .ok () written ∧
      Replaced container new front tree written := by
  obtain ⟨written, hreplaced⟩ := exists_replaced hleads.reached new
  have hfollow : follow address segments tree = .ok container := follow_eq_ok.2 ⟨front, hleads⟩
  refine ⟨written, ?_, hreplaced⟩
  rw [set, hsegments, place_append_of_follow hfollow]
  exact editAlong_eq_ok.2 ⟨front, container, new, hleads, hplace, hreplaced⟩

/-- Writing fails with the failure at the container. -/
theorem exists_set_eq_error {value after : Node}
    (hsegments : (Address.parse address).segments = segments ++ [last])
    (hleads : Leads segments front tree container)
    (hplace : place address value [last] container = .error fault after) :
    ∃ after, set address value tree = .error fault after := by
  have hfollow : follow address segments tree = .ok container := follow_eq_ok.2 ⟨front, hleads⟩
  rw [set, hsegments, place_append_of_follow hfollow]
  exact exists_editAlong_eq_error.2 (.inr ⟨container, hfollow, after, hplace⟩)

/-- What comes of moving a node onto itself, by the step that leads to it from its container. -/
inductive MovedOntoItself (address : String) (node tree : Node) (front : List Step) : Step → Prop
  /-- A value of a mapping is the last one afterwards, so the tree is equal to what it was. -/
  | value {name : String} {before back : Entries Node} {moved : Node} :
      move address address tree = .ok () moved →
      Replaced (.mapping (before ++ (name, node) :: back))
        (.mapping (before ++ back ++ [(name, node)])) front tree moved →
      Alike tree moved → MovedOntoItself address node tree front (.key name)
  /-- An item takes the place of the next one, which is lost. -/
  | item {before back : List Node} {next moved : Node} :
      move address address tree = .ok () moved →
      Replaced (.sequence (before ++ node :: next :: back)) (.sequence (before ++ node :: back))
        front tree moved →
      ¬ Alike tree moved → MovedOntoItself address node tree front (.item before.length)
  /-- There is no place for the last item of a sequence. -/
  | lastItem {before : List Node} :
      tree.reach? front = some (.sequence (before ++ [node])) →
      move address address tree = .error (.outOfRange address before.length before.length) tree →
      MovedOntoItself address node tree front (.item before.length)

section Entry
variable {name : String} {before back : Entries Node}

/-- An entry that was taken out comes back as the last one. -/
theorem place_taken_entry
    (h : (Node.mapping (before ++ (name, node) :: back)).WellFormed) :
    place address node [name] (.mapping (before ++ back)) =
      .ok () (.mapping (before ++ back ++ [(name, node)])) := by
  rw [place, Entries.insert_of_notMem (wellFormed_mapping.1 h).1.notMem_around]

theorem alike_of_last_entry
    (h : (Node.mapping (before ++ (name, node) :: back)).WellFormed) :
    Alike (.mapping (before ++ (name, node) :: back))
      (.mapping (before ++ back ++ [(name, node)])) := by
  apply alike_of_perm h
  rw [List.append_assoc]
  exact (List.perm_append_singleton (name, node) back).symm.append_left before

end Entry

theorem not_alike_of_lost_item {before back : List Node} {next : Node}
    (h : Replaced (.sequence (before ++ node :: next :: back)) (.sequence (before ++ node :: back))
      front tree moved) : ¬ Alike tree moved := by
  intro hsame
  have hcontainers := hsame.reach? front
  rw [h.reach?_old, h.reach?_new] at hcontainers
  cases hcontainers with
  | some hitems =>
    have hlength := (alike_sequence.1 hitems).length_eq
    simp at hlength

/-- A node that is found below the root is moved onto itself without loss if it is a value of a
mapping. An item of a sequence never is. -/
theorem move_onto_itself (address : String) (htree : tree.WellFormed) (hne : address ≠ "")
    (hfound : tree.lookup address = .ok node) :
    ∃ front step, Leads (Address.parse address).segments (front ++ [step]) tree node ∧
      MovedOntoItself address node tree front step := by
  obtain ⟨without, hdelete⟩ := (exists_delete_eq_ok hne).2 hfound
  obtain ⟨segments, last, front, step, before, after, hsegments, hfront, hlast, hlost, hreplaced⟩ :=
    delete_eq_ok.1 hdelete
  have hcontainer : Leads segments front without after := ⟨hfront.spelled, hreplaced.reach?_new⟩
  refine ⟨front, step, hsegments ▸ hfront.append hlast, ?_⟩
  cases hlost with
  | @entry name before back hnew =>
    obtain rfl : last = name := (List.forall₂_cons.1 hlast.spelled).1
    have hcontents := htree.reach? hfront.reached
    obtain ⟨moved, hset, hwritten⟩ :=
      exists_set_eq_ok hsegments hcontainer (place_taken_entry hcontents)
    have hmoved := hreplaced.trans hwritten
    exact .value (move_eq_ok.2 ⟨node, without, hdelete, hset⟩) hmoved
      (hmoved.alike (alike_of_last_entry hcontents) htree)
  | item before back =>
    have hindex : Address.index? last = some before.length :=
      (List.forall₂_cons.1 hlast.spelled).1
    cases back with
    | nil =>
      have hplace : place address node [last] (.sequence (before ++ [])) =
          .error (.outOfRange address before.length before.length) (.sequence (before ++ [])) := by
        simp [place, Address.place, hindex]
      obtain ⟨_, hset⟩ := exists_set_eq_error hsegments hcontainer hplace
      exact .lastItem hfront.reached (move_eq_error.2 ⟨rfl, .set hdelete hset⟩)
    | cons next back =>
      have hlt : before.length < (before ++ next :: back).length := by simp
      have hplace : place address node [last] (.sequence (before ++ next :: back)) =
          .ok () (.sequence (before ++ node :: back)) := by
        simp [place, Address.place_of_index? hindex hlt]
      obtain ⟨moved, hset, hwritten⟩ := exists_set_eq_ok hsegments hcontainer hplace
      have hmoved := hreplaced.trans hwritten
      exact .item (move_eq_ok.2 ⟨node, without, hdelete, hset⟩) hmoved
        (not_alike_of_lost_item hmoved)

theorem move_onto_itself_branched :
    ∃ moved, move "schema.oneOf.0.type" "schema.oneOf.0.type" branched = .ok () moved ∧
      Alike branched moved := by
  have hfound : branched.lookup "schema.oneOf.0.type" = .ok (.ofString "string") := rfl
  obtain ⟨front, step, hleads, hmoved⟩ :=
    move_onto_itself "schema.oneOf.0.type" (by decide) (by decide) hfound
  have htaken : Leads (Address.parse "schema.oneOf.0.type").segments
      ([.key "schema", .key "oneOf", .item 0] ++ [.key "type"]) branched (.ofString "string") :=
    ⟨by decide, rfl⟩
  obtain ⟨rfl, hstep⟩ := List.append_inj' (hleads.unique htaken).1 rfl
  obtain rfl : step = .key "type" := List.head_eq_of_cons_eq hstep
  cases hmoved with
  | value hmove _ hsame => exact ⟨_, hmove, hsame⟩

/-- A sequence of two items. -/
def pair : Node := .sequence [.ofString "first", .ofString "second"]

/-- Moved onto itself, the first of two items replaces the second. -/
theorem not_all_self_moves_lossless :
    ¬ ∀ (address : String) (tree node : Node), tree.WellFormed → address ≠ "" →
      tree.lookup address = .ok node →
      ∃ moved, move address address tree = .ok () moved ∧ tree.same moved = true := by
  intro h
  obtain ⟨moved, hmoved, hsame⟩ := h "0" pair (.ofString "first") (by decide) (by decide) rfl
  obtain ⟨-, rfl⟩ := EStateM.Result.ok.inj hmoved
  exact absurd hsame (by decide)

end ApiTidy.Node
