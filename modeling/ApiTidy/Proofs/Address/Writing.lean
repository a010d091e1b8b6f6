import ApiTidy.Proofs.Address.Way

/-!
Writing a node at an address. Where the way that is there ends, the node at its end is replaced, or
the mapping there gets one further entry, after all others, with mappings down to the new node. So
the node stands at the address afterwards and everything beside the way stays. Writing fails exactly
where the way meets something that a segment cannot lead into.
-/
namespace ApiTidy.Node
variable {address segment : String} {value tree written : Node} {rest segments : List String}
  {spot way : List Step}

/-- The steps to the values under some keys. -/
def keySteps (keys : List String) : List Step := keys.map .key

theorem spelled_keySteps (keys : List String) : List.Forall₂ Step.Spelled (keySteps keys) keys := by
  induction keys with
  | nil => exact .nil
  | cons key rest ih => exact .cons rfl ih

theorem reach?_nest (value : Node) (keys : List String) :
    (nest value keys).reach? (keySteps keys) = some value := by
  induction keys with
  | nil => exact reach?_nil value
  | cons key rest ih => simpa [nest, keySteps] using ih

theorem reach?_nest_beside (value : Node) {keys : List String} (h : Apart spot (keySteps keys)) :
    (nest value keys).reach? spot = none := by
  induction keys generalizing spot with
  | nil => exact absurd rfl h.ne_nil_right
  | cons key rest ih =>
    cases spot with
    | nil => exact absurd rfl h.ne_nil_left
    | cons step spot =>
      cases step with
      | item index => rfl
      | key name =>
        by_cases hname : key = name
        · subst hname
          simp [nest, ih h.tail]
        · simp [nest, hname]

/-- What writing along segments makes of the node that they start from, if no segment of them leads
to something that is there. -/
inductive Extended (value : Node) : List String → Node → Node → Prop
  | replaced (old : Node) : Extended value [] old value
  | added {key : String} {rest : List String} {entries : Entries Node} :
      Entries.get? entries key = none →
      Extended value (key :: rest) (.mapping entries)
        (.mapping (entries ++ [(key, nest value rest)]))

/-- Writing replaces the node where the way that is there ends. -/
theorem place_eq_ok (h : place address value segments tree = .ok () written) :
    ∃ front later way old new, segments = front ++ later ∧ Leads front way tree old ∧
      Replaced old new way tree written ∧ Extended value later old new := by
  induction segments generalizing tree written with
  | nil =>
    simp only [place] at h
    obtain ⟨-, rfl⟩ := EStateM.Result.ok.inj h
    exact ⟨[], [], [], tree, value, rfl, leads_nil.2 ⟨rfl, rfl⟩, .here, .replaced tree⟩
  | cons segment rest ih =>
    cases tree with
    | scalar old => simp [place] at h
    | sequence items =>
      obtain ⟨index, child, hindex, rfl, hchild⟩ := place_sequence_eq_ok h
      obtain ⟨front, later, way, old, new, rfl, hfront, hreplaced, hextended⟩ := ih hchild
      have hitem : items[index.val]? = some (items.get index) := by simp
      exact ⟨segment :: front, later, .item index :: way, old, new, rfl, .item hindex hitem hfront,
        .item hitem hreplaced, hextended⟩
    | mapping entries =>
      obtain ⟨child, rfl, hchild⟩ := place_mapping_eq_ok h
      cases hget : Entries.get? entries segment with
      | none =>
        rw [hget, Option.getD_none, place_empty] at hchild
        obtain ⟨-, rfl⟩ := EStateM.Result.ok.inj hchild
        rw [Entries.insert_of_notMem (Entries.get?_eq_none_iff.1 hget)]
        exact ⟨[], segment :: rest, [], _, _, rfl, leads_nil.2 ⟨rfl, rfl⟩, .here, .added hget⟩
      | some found =>
        rw [hget, Option.getD_some] at hchild
        obtain ⟨front, later, way, old, new, rfl, hfront, hreplaced, hextended⟩ := ih hchild
        exact ⟨segment :: front, later, .key segment :: way, old, new, rfl, .key hget hfront,
          .key hget hreplaced, hextended⟩

namespace Extended
variable {keys : List String} {old new : Node}

theorem reach?_new (h : Extended value keys old new) : new.reach? (keySteps keys) = some value := by
  cases h with
  | replaced old => exact reach?_nil value
  | added hnew =>
    have hinner := reach?_nest value
    simp only [keySteps] at hinner
    simp [keySteps, Entries.get?_append, hnew, hinner]

theorem reach?_beside (h : Extended value keys old new) (hspot : Apart spot (keySteps keys)) :
    new.reach? spot = old.reach? spot := by
  cases h with
  | replaced old => exact absurd rfl hspot.ne_nil_right
  | @added key rest entries hnew =>
    cases spot with
    | nil => exact absurd rfl hspot.ne_nil_left
    | cons step spot =>
      cases step with
      | item index => rfl
      | key name =>
        by_cases hname : key = name
        · subst hname
          simp [Entries.get?_append, hnew, reach?_nest_beside value hspot.tail]
        · simp [Entries.get?_append, hname]

theorem grown (h : Extended value keys old new) {before : Node}
    (hbefore : old.reach? spot = some before) (hbelow : ¬ keySteps keys <+: spot) :
    ∃ after added, new.reach? spot = some after ∧ Grown added before after ∧
      (added = [] ∨ ∃ key, added = [key] ∧ spot ++ [.key key] <+: keySteps keys) := by
  cases h with
  | replaced old => exact absurd List.nil_prefix hbelow
  | @added key rest entries hnew =>
    cases spot with
    | nil =>
      rw [reach?_nil] at hbefore
      obtain rfl := Option.some.inj hbefore
      have hkeys : Entries.keys (entries ++ [(key, nest value rest)]) =
        Entries.keys entries ++ [key] := List.map_append
      have hway : [.key key] <+: keySteps (key :: rest) :=
        List.cons_prefix_cons.2 ⟨rfl, List.nil_prefix⟩
      exact ⟨_, [key], reach?_nil _, .mapping hkeys, .inr ⟨key, rfl, hway⟩⟩
    | cons step spot =>
      have hkept : (mapping (entries ++ [(key, nest value rest)])).reach? (step :: spot) =
          some before := by
        cases step with
        | item index => simp at hbefore
        | key name =>
          obtain ⟨child, hchild, hrest⟩ := Option.bind_eq_some_iff.1 hbefore
          simp [Entries.get?_append, hchild, hrest]
      exact ⟨before, [], hkept, .refl before, .inl rfl⟩

end Extended

/-- What writing did, which leads along `way` to the value now. -/
structure Wrote (value tree written : Node) (way : List Step) : Prop where
  reached : written.reach? way = some value
  beside : ∀ spot, Apart spot way → written.reach? spot = tree.reach? spot
  /-- Items and keys keep their places; a new key is one of the way and comes last. -/
  order : ∀ spot before, tree.reach? spot = some before → ¬ way <+: spot →
    ∃ after added, written.reach? spot = some after ∧ Grown added before after ∧
      (added = [] ∨ ∃ key, added = [key] ∧ spot ++ [.key key] <+: way)

theorem Extended.wrote {keys : List String} {old new : Node} (h : Extended value keys old new)
    (hreplaced : Replaced old new way tree written) :
    Wrote value tree written (way ++ keySteps keys) := by
  constructor
  case reached => exact (hreplaced.reach?_append_new _).trans h.reach?_new
  case beside =>
    intro spot hspot
    obtain hapart | ⟨hstarts, -⟩ | ⟨rest, rfl⟩ := way_cases spot way
    · exact hreplaced.reach?_beside hapart
    · exact absurd (hstarts.trans (List.prefix_append _ _)) hspot.1
    · rw [hreplaced.reach?_append_new, hreplaced.reach?_append_old]
      exact h.reach?_beside ((apart_append way).1 hspot)
  case order =>
    intro spot before hbefore hbelow
    obtain hapart | ⟨hstarts, hne⟩ | ⟨rest, rfl⟩ := way_cases spot way
    · rw [← hreplaced.reach?_beside hapart] at hbefore
      exact ⟨before, [], hbefore, .refl before, .inl rfl⟩
    · obtain ⟨first, after, hfirst, hafter, hgrown⟩ := hreplaced.grown_above hstarts hne
      obtain rfl := Option.some.inj (hfirst.symm.trans hbefore)
      exact ⟨after, [], hafter, hgrown, .inl rfl⟩
    · rw [List.prefix_append_right_inj] at hbelow
      rw [hreplaced.reach?_append_old] at hbefore
      obtain ⟨after, added, hafter, hgrown, hadded⟩ := h.grown hbefore hbelow
      rw [← hreplaced.reach?_append_new] at hafter
      refine ⟨after, added, hafter, hgrown, hadded.imp_right fun ⟨key, heq, hkey⟩ => ?_⟩
      rw [← List.prefix_append_right_inj way, ← List.append_assoc] at hkey
      exact ⟨key, heq, hkey⟩

/-- Segments that led beside the way lead to the same node still. -/
theorem Wrote.leads (h : Wrote value tree written way) {other : List String} {steps : List Step}
    {found : Node} (hother : Leads other steps tree found) (hsteps : Apart steps way) :
    Leads other steps written found :=
  ⟨hother.spelled, (h.beside steps hsteps).trans hother.reached⟩

theorem place_wrote (h : place address value segments tree = .ok () written) :
    ∃ way, Leads segments way written value ∧ Wrote value tree written way := by
  obtain ⟨front, later, way, old, new, rfl, hfront, hreplaced, hextended⟩ := place_eq_ok h
  have hwrote := hextended.wrote hreplaced
  have hspelled := List.rel_append hfront.spelled (spelled_keySteps later)
  exact ⟨way ++ keySteps later, ⟨hspelled, hwrote.reached⟩, hwrote⟩

/-- Whether no way leads on from a node by a segment, nor can be made. -/
def Refuses (segment : String) : Node → Prop
  | .mapping _ => False
  | .sequence items => ∀ index, Address.index? segment = some index → items.length ≤ index
  | .scalar _ => True

theorem refuses_of_place {items : List Node} {fault : AddressError}
    (h : Address.place address segment items.length = .error fault) :
    (sequence items).Refuses segment := by
  intro index hindex
  by_contra hlt
  rw [Address.place_of_index? hindex (Nat.lt_of_not_le hlt)] at h
  simp at h

/-- Whether segments meet a node, on the part of their way that is there, that refuses the next of
them. -/
def Blocked (segments : List String) (tree : Node) : Prop :=
  ∃ front segment rest way node, segments = front ++ segment :: rest ∧
    Leads front way tree node ∧ node.Refuses segment

theorem blocked_nil : ¬ Blocked [] tree := by
  rintro ⟨front, segment, rest, -, -, hsegments, -⟩
  simp at hsegments

theorem blocked_cons : Blocked (segment :: rest) tree ↔
    tree.Refuses segment ∨ ∃ way child, Leads [segment] way tree child ∧ Blocked rest child := by
  constructor
  · rintro ⟨front, last, later, way, node, hsegments, hleads, hrefuses⟩
    cases front with
    | nil =>
      obtain ⟨rfl, -⟩ := List.cons.inj hsegments
      obtain ⟨-, rfl⟩ := leads_nil.1 hleads
      exact .inl hrefuses
    | cons first front =>
      obtain ⟨rfl, rfl⟩ := List.cons.inj hsegments
      obtain ⟨step, others, child, -, hstep, hothers⟩ := hleads.cons_split
      exact .inr ⟨step, child, hstep, front, last, later, others, node, rfl, hothers, hrefuses⟩
  · rintro (hrefuses | ⟨way, child, hway, front, last, later, others, node, rfl, hothers, hrefuses⟩)
    · exact ⟨[], segment, rest, [], tree, rfl, leads_nil.2 ⟨rfl, rfl⟩, hrefuses⟩
    · exact ⟨segment :: front, last, later, way ++ others, node, rfl, hway.append hothers, hrefuses⟩

theorem not_refuses_of_leads {child : Node} (h : Leads [segment] way tree child) :
    ¬ tree.Refuses segment := by
  obtain ⟨entries, rfl, -, -⟩ | ⟨items, index, rfl, -, hindex, hchild⟩ := h.step_cases
  · exact id
  · intro hrefuses
    rw [List.getElem?_eq_none (hrefuses index hindex)] at hchild
    simp at hchild

/-- Where a segment leads to a node, only what comes after it can be refused. -/
theorem blocked_cons_of_leads {child : Node} (h : Leads [segment] way tree child) :
    Blocked (segment :: rest) tree ↔ Blocked rest child := by
  rw [blocked_cons, or_iff_right (not_refuses_of_leads h)]
  constructor
  · rintro ⟨other, found, hother, hrest⟩
    obtain ⟨-, rfl⟩ := h.unique hother
    exact hrest
  · exact fun hrest => ⟨way, child, h, hrest⟩

/-- Writing fails exactly where the way is blocked. -/
theorem exists_place_eq_error :
    (∃ fault changed, place address value segments tree = .error fault changed) ↔
      Blocked segments tree := by
  induction segments generalizing tree with
  | nil => simp [place, blocked_nil]
  | cons segment rest ih =>
    cases tree with
    | scalar old =>
      exact ⟨fun _ => blocked_cons.2 (.inl trivial),
        fun _ => ⟨_, _, place_scalar address value segment rest old⟩⟩
    | sequence items =>
      cases hp : Address.place address segment items.length with
      | error fault =>
        exact ⟨fun _ => blocked_cons.2 (.inl (refuses_of_place hp)),
          fun _ => ⟨fault, _, place_sequence_of_error hp value rest⟩⟩
      | ok index =>
        have hleads : Leads [segment] [.item index.val] (sequence items) (items.get index) :=
          .item (Address.index?_of_place hp) (by simp) (leads_nil.2 ⟨rfl, rfl⟩)
        rw [place_sequence hp, Edit.exists_onPart_eq_error, ih, blocked_cons_of_leads hleads]
    | mapping entries =>
      rw [place_mapping, Edit.exists_onPart_eq_error, ih]
      cases hget : Entries.get? entries segment with
      | some child =>
        have hleads : Leads [segment] [.key segment] (mapping entries) child :=
          .key hget (leads_nil.2 ⟨rfl, rfl⟩)
        rw [Option.getD_some, blocked_cons_of_leads hleads]
      | none =>
        constructor
        · intro hblocked
          obtain ⟨_, _, h⟩ := ih.2 hblocked
          rw [Option.getD_none, place_empty] at h
          simp at h
        · intro hblocked
          obtain hfalse | ⟨way, child, hway, -⟩ := blocked_cons.1 hblocked
          · exact hfalse.elim
          · obtain ⟨_, hmapping, -, hchild⟩ | ⟨_, _, hsequence, -⟩ := hway.step_cases
            · rw [← Node.mapping.inj hmapping, hget] at hchild
              simp at hchild
            · simp at hsequence

/-- What writing a value at an address leaves. It is found there. Every address that led to a node
beside the way leads to the same node, and altogether nothing beside the way is changed. No key and
no item that stays changes its place, and a key that is new comes last. -/
structure WrittenAt (address : String) (value tree written : Node) (way : List Step) : Prop where
  leads : Leads (Address.parse address).segments way written value
  found : written.lookup address = .ok value
  kept : ∀ other steps node, Leads (Address.parse other).segments steps tree node →
    Apart steps way → written.lookup other = .ok node
  wrote : Wrote value tree written way

/-- Writing at an address writes there and nowhere else. It fails exactly if some segment meets a
scalar, or a sequence of which it is not the index of an item. -/
theorem set_writes_one_place (address : String) (value tree : Node) :
    ((∃ fault changed, set address value tree = .error fault changed) ↔
        Blocked (Address.parse address).segments tree) ∧
      ∀ written, set address value tree = .ok () written →
        ∃ way, WrittenAt address value tree written way := by
  constructor
  · exact exists_place_eq_error
  · intro written h
    obtain ⟨way, hleads, hwrote⟩ := place_wrote h
    refine ⟨way, hleads, lookup_set h, fun other steps node hother hsteps => ?_, hwrote⟩
    exact follow_eq_ok.2 ⟨steps, hwrote.leads hother hsteps⟩

/-- Mappings in a sequence and beside it. -/
def branching : Node :=
  .mapping [("list", .sequence [.mapping [("x", .null)], .ofString "item"]), ("last", .null)]

theorem set_writes_one_place_below_item :
    ∃ written, set "list.+0.y.z" .null branching = .ok () written ∧
      WrittenAt "list.+0.y.z" .null branching written
        [.key "list", .item 0, .key "y", .key "z"] ∧
      written.lookup "list.00.x" = .ok .null ∧
      Blocked (Address.parse "list.2.y").segments branching := by
  obtain ⟨-, hwrites⟩ := set_writes_one_place "list.+0.y.z" .null branching
  obtain ⟨hblocked, -⟩ := set_writes_one_place "list.2.y" .null branching
  have hset : ∃ written, set "list.+0.y.z" .null branching = .ok () written := ⟨_, rfl⟩
  obtain ⟨written, hwritten⟩ := hset
  obtain ⟨way, hway⟩ := hwrites written hwritten
  have htaken : Leads (Address.parse "list.+0.y.z").segments
      [.key "list", .item 0, .key "y", .key "z"] written .null := by
    obtain ⟨-, rfl⟩ := EStateM.Result.ok.inj hwritten
    exact ⟨by decide, rfl⟩
  obtain ⟨rfl, -⟩ := hway.leads.unique htaken
  have hother : Leads (Address.parse "list.00.x").segments [.key "list", .item 0, .key "x"]
      branching .null := ⟨by decide, rfl⟩
  exact ⟨written, hwritten, hway, hway.kept _ _ _ hother ⟨by decide, by decide⟩,
    hblocked.1 ⟨_, _, rfl⟩⟩

end ApiTidy.Node
