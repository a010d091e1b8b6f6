import ApiTidy.Proofs.Address.Writing
import ApiTidy.Proofs.Text.Numeral

/-!
Writes at two addresses of which neither leads on from the other. A sequence keeps its length and a
mapping its other values, so each write meets what it would meet without the other, even where both
make the same mappings on their way. For this an item must have one spelling: a plus sign or a zero
in front of an index would hide that two segments lead to one item.
-/
namespace ApiTidy

/-- Whether a segment has neither a plus sign in front nor, if it is a number, a superfluous zero. -/
def Address.Plain (segment : String) : Prop :=
  segment.toList.head? ≠ some '+' ∧
    ¬ (segment.toList.all Text.isDigit ∧ segment.toList.head? = some '0' ∧ segment ≠ "0")

instance (segment : String) : Decidable (Address.Plain segment) :=
  inferInstanceAs (Decidable (_ ∧ _))

/-- An index has one plain spelling, its decimal numeral. -/
theorem Address.decimal_of_plain {segment : String} {index : Nat} (h : Plain segment)
    (hindex : index? segment = some index) : Text.decimal index = segment.toList := by
  obtain ⟨hsign, hzero⟩ := h
  obtain ⟨hnumeral, -⟩ := Option.filter_eq_some_iff.1 hindex
  split at hnumeral
  next rest hplus => simp [hplus] at hsign
  next =>
    refine Text.decimal_of_numeral? hnumeral fun hhead => ?_
    by_contra hne
    refine hzero ⟨?_, hhead, fun heq => hne (by rw [heq]; rfl)⟩
    cases hdigits : segment.toList with
    | nil => rfl
    | cons c rest =>
      rw [hdigits] at hnumeral
      exact Text.isDigit_of_numeralFrom? hnumeral

theorem Address.eq_of_index? {first second : String} {index : Nat} (hfirst : Plain first)
    (hsecond : Plain second) (h : index? first = some index) (hother : index? second = some index) :
    first = second := by
  rw [← String.toList_inj, ← decimal_of_plain hfirst h, decimal_of_plain hsecond hother]

namespace Node
variable {address segment : String} {value : Node} {rest segments : List String}
  {entries : Entries Node} {items : List Node} {index : Nat}

theorem after_place_mapping (address : String) (value : Node) (segment : String)
    (rest : List String) (entries : Entries Node) :
    (place address value (segment :: rest)).after (.mapping entries) =
      .mapping (Entries.insert entries segment
        ((place address value rest).after ((Entries.get? entries segment).getD (.mapping [])))) :=
  Edit.after_of_eq_onPart (place_mapping address value segment rest entries)

theorem outcome_place_mapping (address : String) (value : Node) (segment : String)
    (rest : List String) (entries : Entries Node) :
    (place address value (segment :: rest)).outcome (.mapping entries) =
      (place address value rest).outcome ((Entries.get? entries segment).getD (.mapping [])) :=
  Edit.outcome_of_eq_onPart (place_mapping address value segment rest entries)

theorem after_place_sequence (hindex : Address.index? segment = some index)
    (hlt : index < items.length) (address : String) (value : Node) (rest : List String) :
    (place address value (segment :: rest)).after (.sequence items) =
      .sequence (items.set index ((place address value rest).after items[index])) :=
  Edit.after_of_eq_onPart (place_sequence (Address.place_of_index? hindex hlt) value rest)

theorem outcome_place_sequence (hindex : Address.index? segment = some index)
    (hlt : index < items.length) (address : String) (value : Node) (rest : List String) :
    (place address value (segment :: rest)).outcome (.sequence items) =
      (place address value rest).outcome items[index] :=
  Edit.outcome_of_eq_onPart (place_sequence (Address.place_of_index? hindex hlt) value rest)

section Alike
variable {key other : String} {new newer : Node}

/-- Equal values under a key make equal mappings of one. -/
theorem alike_insert (h : (mapping entries).WellFormed) (hvalue : Alike new newer) (key : String) :
    Alike (.mapping (Entries.insert entries key new))
      (.mapping (Entries.insert entries key newer)) := by
  have hreplaced : Replaced new newer [.key key] (.mapping (Entries.insert entries key new))
      (.mapping (Entries.insert (Entries.insert entries key new) key newer)) :=
    .key (Entries.get?_insert_self entries key new) .here
  rw [Entries.insert_insert] at hreplaced
  exact hreplaced.alike hvalue (h.insert key hvalue.left)

theorem alike_set (h : (sequence items).WellFormed) (hvalue : Alike new newer)
    (hlt : index < items.length) :
    Alike (.sequence (items.set index new)) (.sequence (items.set index newer)) := by
  have hreplaced : Replaced new newer [.item index] (.sequence (items.set index new))
      (.sequence ((items.set index new).set index newer)) :=
    .item (List.getElem?_set_self hlt) .here
  rw [List.set_set] at hreplaced
  exact hreplaced.alike hvalue (h.set hvalue.left index)

/-- Entries of two keys may be put into a mapping in either order. -/
theorem alike_insert_insert (h : (mapping entries).WellFormed) (hnew : new.WellFormed)
    (hnewer : newer.WellFormed) (hne : key ≠ other) :
    Alike (.mapping (Entries.insert (Entries.insert entries key new) other newer))
      (.mapping (Entries.insert (Entries.insert entries other newer) key new)) := by
  have hkeys := (wellFormed_mapping.1 h).1
  refine alike_mapping.2 ⟨(hkeys.insert key new).insert other newer,
    (hkeys.insert other newer).insert key new, fun found => ?_⟩
  by_cases hkey : found = key
  · subst hkey
    rw [Entries.get?_insert_of_ne hne, Entries.get?_insert_self, Entries.get?_insert_self]
    exact .some (.refl hnew)
  · rw [Entries.get?_insert_of_ne hkey]
    by_cases hother : found = other
    · subst hother
      rw [Entries.get?_insert_self, Entries.get?_insert_self]
      exact .some (.refl hnewer)
    · rw [Entries.get?_insert_of_ne hother, Entries.get?_insert_of_ne hother,
        Entries.get?_insert_of_ne hkey]
      exact (alike_mapping.1 (.refl h)).2.2 found

end Alike

/-- Writing makes no key occur twice, even if it fails. -/
theorem wellFormed_after_place {tree : Node} (htree : tree.WellFormed) (hvalue : value.WellFormed)
    (address : String) (segments : List String) :
    ((place address value segments).after tree).WellFormed := by
  induction segments generalizing tree with
  | nil => exact hvalue
  | cons segment rest ih =>
    cases tree with
    | scalar old =>
      rw [Edit.after_of_eq_error (place_scalar address value segment rest old)]
      exact htree
    | mapping entries =>
      rw [after_place_mapping]
      exact htree.insert segment (ih (htree.getD_get? segment))
    | sequence items =>
      cases hplace : Address.place address segment items.length with
      | error fault =>
        rw [Edit.after_of_eq_error (place_sequence_of_error hplace value rest)]
        exact htree
      | ok index =>
        rw [after_place_sequence (Address.index?_of_place hplace) index.isLt]
        exact htree.set (ih (wellFormed_sequence.1 htree _ (List.getElem_mem _))) index

/-- Writing below a sequence keeps its length. -/
theorem exists_after_place_sequence (address : String) (value : Node) (segment : String)
    (rest : List String) (items : List Node) :
    ∃ others, (place address value (segment :: rest)).after (.sequence items) = .sequence others ∧
      others.length = items.length := by
  cases hplace : Address.place address segment items.length with
  | error fault =>
    exact ⟨items, Edit.after_of_eq_error (place_sequence_of_error hplace value rest), rfl⟩
  | ok index =>
    exact ⟨_, after_place_sequence (Address.index?_of_place hplace) index.isLt address value rest,
      List.length_set⟩

/-- Whether two edits of a tree come to the same in either order: each fares as it does without the
other, and the trees that they leave are equal. -/
structure Independent (first second : Edit AddressError Node Unit) (tree : Node) : Prop where
  outcome_first : first.outcome (second.after tree) = first.outcome tree
  outcome_second : second.outcome (first.after tree) = second.outcome tree
  alike : Alike (second.after (first.after tree)) (first.after (second.after tree))

section Independent
variable {first second : Edit AddressError Node Unit} {tree : Node}

theorem Independent.symm (h : Independent first second tree) : Independent second first tree :=
  ⟨h.outcome_second, h.outcome_first, h.alike.symm⟩

/-- An edit that fails with or without another is independent of it. -/
theorem independent_of_error {fault : AddressError} (h : first tree = .error fault tree)
    (hlater : first (second.after tree) = .error fault (second.after tree))
    (hwell : (second.after tree).WellFormed) : Independent first second tree := by
  have hafter := Edit.after_of_eq_error h
  constructor
  case outcome_first => rw [Edit.outcome, Edit.outcome, h, hlater]
  case outcome_second => rw [hafter]
  case alike =>
    rw [hafter, Edit.after_of_eq_error hlater]
    exact .refl hwell

end Independent

section Beside
variable {first second other : String} {later others : List String} {new newer : Node}

/-- Below a sequence, a segment is refused whatever is written there by another. -/
theorem independent_place_refused {fault : AddressError} (hitems : (sequence items).WellFormed)
    (hnewer : newer.WellFormed) (h : Address.place first segment items.length = .error fault) :
    Independent (place first new (segment :: rest)) (place second newer (other :: others))
      (.sequence items) := by
  obtain ⟨changed, hafter, hlength⟩ :=
    exists_after_place_sequence second newer other others items
  have hagain : Address.place first segment changed.length = .error fault := by
    rw [hlength]
    exact h
  apply independent_of_error (place_sequence_of_error h new rest)
  · rw [hafter]
    exact place_sequence_of_error hagain new rest
  · exact wellFormed_after_place hitems hnewer second _

/-- Writing below two items is writing below each of them. -/
theorem independent_place_items {i j : Nat} (hitems : (sequence items).WellFormed)
    (hnew : new.WellFormed) (hnewer : newer.WellFormed)
    (hi : Address.index? segment = some i) (hj : Address.index? other = some j)
    (hilt : i < items.length) (hjlt : j < items.length) (hne : i ≠ j) :
    Independent (place first new (segment :: rest)) (place second newer (other :: others))
      (.sequence items) := by
  have hvalues := wellFormed_sequence.1 hitems
  have hfirst := wellFormed_after_place (hvalues _ (List.getElem_mem hilt)) hnew first rest
  have hsecond := wellFormed_after_place (hvalues _ (List.getElem_mem hjlt)) hnewer second others
  constructor
  case outcome_first =>
    rw [after_place_sequence hj hjlt, outcome_place_sequence hi (by simpa using hilt),
      outcome_place_sequence hi hilt, List.getElem_set_ne hne.symm]
  case outcome_second =>
    rw [after_place_sequence hi hilt, outcome_place_sequence hj (by simpa using hjlt),
      outcome_place_sequence hj hjlt, List.getElem_set_ne hne]
  case alike =>
    rw [after_place_sequence hi hilt, after_place_sequence hj hjlt,
      after_place_sequence hj (by simpa using hjlt), after_place_sequence hi (by simpa using hilt),
      List.getElem_set_ne hne, List.getElem_set_ne hne.symm, List.set_comm _ _ hne]
    exact .refl ((hitems.set hsecond j).set hfirst i)

/-- Writing below two keys is writing below each of them. The order of keys that are new is that of
the writing. -/
theorem independent_place_keys (hentries : (mapping entries).WellFormed)
    (hnew : new.WellFormed) (hnewer : newer.WellFormed) (hne : segment ≠ other) :
    Independent (place first new (segment :: rest)) (place second newer (other :: others))
      (.mapping entries) := by
  have hfirst := wellFormed_after_place (hentries.getD_get? segment) hnew first rest
  have hsecond := wellFormed_after_place (hentries.getD_get? other) hnewer second others
  constructor
  case outcome_first =>
    rw [after_place_mapping, outcome_place_mapping, outcome_place_mapping,
      Entries.get?_insert_of_ne hne]
  case outcome_second =>
    rw [after_place_mapping, outcome_place_mapping, outcome_place_mapping,
      Entries.get?_insert_of_ne hne.symm]
  case alike =>
    rw [after_place_mapping, after_place_mapping, after_place_mapping, after_place_mapping,
      Entries.get?_insert_of_ne hne, Entries.get?_insert_of_ne hne.symm]
    exact alike_insert_insert hentries hfirst hsecond hne

/-- Writing below one item is writing in it. -/
theorem independent_place_item (hitems : (sequence items).WellFormed)
    (hsegment : Address.index? segment = some index) (hother : Address.index? other = some index)
    (hlt : index < items.length)
    (h : Independent (place first new rest) (place second newer others) items[index]) :
    Independent (place first new (segment :: rest)) (place second newer (other :: others))
      (.sequence items) := by
  have hset (item : Node) : index < (items.set index item).length := by simpa using hlt
  constructor
  case outcome_first =>
    rw [after_place_sequence hother hlt, outcome_place_sequence hsegment (hset _),
      outcome_place_sequence hsegment hlt, List.getElem_set_self]
    exact h.outcome_first
  case outcome_second =>
    rw [after_place_sequence hsegment hlt, outcome_place_sequence hother (hset _),
      outcome_place_sequence hother hlt, List.getElem_set_self]
    exact h.outcome_second
  case alike =>
    rw [after_place_sequence hsegment hlt, after_place_sequence hother hlt,
      after_place_sequence hother (hset _), after_place_sequence hsegment (hset _),
      List.getElem_set_self, List.getElem_set_self, List.set_set, List.set_set]
    exact alike_set hitems h.alike hlt

/-- Writing below one key is writing in the value there, which is an empty mapping if the key is
new. -/
theorem independent_place_key (hentries : (mapping entries).WellFormed)
    (h : Independent (place first new rest) (place second newer others)
      ((Entries.get? entries segment).getD (.mapping []))) :
    Independent (place first new (segment :: rest)) (place second newer (segment :: others))
      (.mapping entries) := by
  constructor
  case outcome_first =>
    rw [after_place_mapping, outcome_place_mapping, outcome_place_mapping,
      Entries.get?_insert_self, Option.getD_some]
    exact h.outcome_first
  case outcome_second =>
    rw [after_place_mapping, outcome_place_mapping, outcome_place_mapping,
      Entries.get?_insert_self, Option.getD_some]
    exact h.outcome_second
  case alike =>
    rw [after_place_mapping, after_place_mapping, after_place_mapping, after_place_mapping,
      Entries.get?_insert_self, Entries.get?_insert_self, Option.getD_some, Option.getD_some,
      Entries.insert_insert, Entries.insert_insert]
    exact alike_insert hentries h.alike segment

end Beside

/-- Writing at two addresses, neither of which leads on from the other, comes to the same in either
order: a step that both take leads them on in one node, and from where they part each goes on in a
node that the other does not change. -/
theorem independent_place {first second : String} {segments others : List String}
    {new newer tree : Node} (htree : tree.WellFormed) (hnew : new.WellFormed)
    (hnewer : newer.WellFormed) (hsegments : ∀ segment ∈ segments, Address.Plain segment)
    (hothers : ∀ segment ∈ others, Address.Plain segment) (habove : ¬ segments <+: others)
    (hbelow : ¬ others <+: segments) :
    Independent (place first new segments) (place second newer others) tree := by
  induction segments generalizing others tree with
  | nil => exact absurd List.nil_prefix habove
  | cons segment rest ih =>
    cases others with
    | nil => exact absurd List.nil_prefix hbelow
    | cons other later =>
      obtain ⟨hsegment, hrest⟩ := List.forall_mem_cons.1 hsegments
      obtain ⟨hother, hlater⟩ := List.forall_mem_cons.1 hothers
      -- where both take the same step, neither leads on from the other after it
      have hsame : segment = other → ∀ {child : Node}, child.WellFormed →
          Independent (place first new rest) (place second newer later) child := by
        rintro rfl child hchild
        refine ih hchild hrest hlater (fun hprefix => habove ?_) fun hprefix => hbelow ?_
        · exact List.cons_prefix_cons.2 ⟨rfl, hprefix⟩
        · exact List.cons_prefix_cons.2 ⟨rfl, hprefix⟩
      cases tree with
      | scalar old =>
        have hafter := Edit.after_of_eq_error (place_scalar second newer other later old)
        apply independent_of_error (place_scalar first new segment rest old)
        · rw [hafter]
          exact place_scalar first new segment rest old
        · rw [hafter]
          exact htree
      | mapping entries =>
        by_cases hkey : segment = other
        · subst hkey
          exact independent_place_key htree (hsame rfl (htree.getD_get? segment))
        · exact independent_place_keys htree hnew hnewer hkey
      | sequence items =>
        cases hi : Address.place first segment items.length with
        | error fault => exact independent_place_refused htree hnewer hi
        | ok i =>
          cases hj : Address.place second other items.length with
          | error fault => exact (independent_place_refused htree hnew hj).symm
          | ok j =>
            have hfirst := Address.index?_of_place hi
            have hsecond := Address.index?_of_place hj
            by_cases hindex : i.val = j.val
            · rw [← hindex] at hsecond
              have hitem := wellFormed_sequence.1 htree _ (List.getElem_mem i.isLt)
              exact independent_place_item htree hfirst hsecond i.isLt
                (hsame (Address.eq_of_index? hsegment hother hfirst hsecond) hitem)
            · exact independent_place_items htree hnew hnewer hfirst hsecond i.isLt j.isLt hindex

/-- Two values may be written in either order at addresses of which neither leads on from the other.
Either way each is written, or fails, as if the other was not, and the trees are equal at the end:
only the order of keys that both add to one mapping may differ. An item must be spelled in one way,
as a plus sign or a zero in front of an index would hide that two addresses are one. -/
theorem set_independent_of_set {first second : String} {new newer tree : Node}
    (htree : tree.WellFormed) (hnew : new.WellFormed) (hnewer : newer.WellFormed)
    (hfirst : ∀ segment ∈ (Address.parse first).segments, Address.Plain segment)
    (hsecond : ∀ segment ∈ (Address.parse second).segments, Address.Plain segment)
    (habove : ¬ (Address.parse first).segments <+: (Address.parse second).segments)
    (hbelow : ¬ (Address.parse second).segments <+: (Address.parse first).segments) :
    (set first new).outcome ((set second newer).after tree) = (set first new).outcome tree ∧
      (set second newer).outcome ((set first new).after tree) = (set second newer).outcome tree ∧
      ((set second newer).after ((set first new).after tree)).same
        ((set first new).after ((set second newer).after tree)) = true := by
  have h : Independent (set first new) (set second newer) tree :=
    independent_place htree hnew hnewer hfirst hsecond habove hbelow
  exact ⟨h.outcome_first, h.outcome_second, h.alike.same⟩

/-- Two writes that make one mapping each add a key to it, and one of them fails below a scalar. -/
theorem set_independent_of_set_branching :
    (set "list.0.y.a" .null).outcome ((set "list.0.y.b" .null).after branching) = .ok () ∧
      ((set "list.0.y.b" .null).after ((set "list.0.y.a" .null).after branching)).same
        ((set "list.0.y.a" .null).after ((set "list.0.y.b" .null).after branching)) = true ∧
      (set "list.1.y" .null).outcome ((set "list.0.y" .null).after branching) =
        .error (.notContainer "list.1.y" "y") := by
  have hboth := @set_independent_of_set "list.0.y.a" "list.0.y.b" .null .null branching (by decide)
    (by decide) (by decide) (by decide) (by decide) (by decide) (by decide)
  have hfails := @set_independent_of_set "list.1.y" "list.0.y" .null .null branching (by decide)
    (by decide) (by decide) (by decide) (by decide) (by decide) (by decide)
  exact ⟨hboth.1.trans rfl, hboth.2.2, hfails.1.trans rfl⟩

end Node
end ApiTidy
