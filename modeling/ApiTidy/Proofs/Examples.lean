import ApiTidy.Examples
import ApiTidy.Proofs.Change

/-!
Removing examples, as a function of a node and of whether its keys are names. Doing it twice is
doing it once, and the count is zero exactly if there were none.
-/
namespace ApiTidy.Examples

/-- A tree without its examples; at its top the keys may be names. -/
def stripped (named : Bool) (node : Node) : Node :=
  if named then (stripNamed node).1 else (strip node).1

/-- Whether the value of a key, in a mapping of names or of keywords, has names as keys. -/
def namesBelow (named : Bool) (key : String) : Bool := !named && isNamingKey key

/-- Whether an entry of a mapping of names or of keywords stays. -/
def isKept (named : Bool) (key : String) : Bool := named || !isExampleKey key

theorem stripItems_fst (items : List Node) :
    (stripItems items).1 = items.map (stripped false) := by
  induction items with
  | nil => rfl
  | cons item rest ih => simp [stripItems, stripped, ih]

theorem stripValues_fst (entries : Entries Node) :
    (stripValues entries).1 = Entries.mapValues (fun _ => stripped false) entries := by
  induction entries with
  | nil => rfl
  | cons entry rest ih => simp [stripValues, stripped, ih]

theorem stripEntries_fst (entries : Entries Node) :
    (stripEntries entries).1 = Entries.mapValues (fun key => stripped (isNamingKey key))
      (entries.filter fun entry => !isExampleKey entry.1) := by
  induction entries with
  | nil => rfl
  | cons entry rest ih =>
    obtain ⟨key, value⟩ := entry
    cases hexample : isExampleKey key with
    | true => simp [stripEntries, hexample, ih]
    | false =>
      cases hnaming : isNamingKey key <;> simp [stripEntries, stripped, hexample, hnaming, ih]

@[simp] theorem stripped_scalar (named : Bool) (value : Scalar) :
    stripped named (.scalar value) = .scalar value := by
  cases named <;> rfl

@[simp] theorem stripped_sequence (named : Bool) (items : List Node) :
    stripped named (.sequence items) = .sequence (items.map (stripped false)) := by
  cases named <;> exact congrArg Node.sequence (stripItems_fst items)

@[simp] theorem stripped_mapping (named : Bool) (entries : Entries Node) :
    stripped named (.mapping entries) =
      .mapping (Entries.mapValues (fun key => stripped (namesBelow named key))
        (entries.filter fun entry => isKept named entry.1)) := by
  cases named with
  | false => exact congrArg Node.mapping (stripEntries_fst entries)
  | true =>
    have hall : (entries.filter fun entry => isKept true entry.1) = entries :=
      List.filter_eq_self.2 fun _ _ => rfl
    rw [hall]
    exact congrArg Node.mapping (stripValues_fst entries)

@[simp] theorem bool?_stripped (named : Bool) (node : Node) :
    (stripped named node).bool? = node.bool? := by
  cases node <;> simp [Node.bool?]

theorem refPointer?_stripped (named : Bool) (node : Node) :
    (stripped named node).refPointer? = node.refPointer? := by
  cases node with
  | scalar value => simp
  | sequence items => simp [Node.refPointer?, Node.field?]
  | mapping entries =>
    have hkept : isKept named Node.refKey = true := by cases named <;> decide
    rw [stripped_mapping]
    refine Node.refPointer?_mapping (f := stripped (namesBelow named Node.refKey))
      (fun value => ?_) ?_
    · cases value <;> simp [Node.string?]
    · rw [Entries.get?_mapValues, Entries.get?_filter, if_pos hkept]

theorem stripped_stripped (named : Bool) (node : Node) :
    stripped named (stripped named node) = stripped named node := by
  induction node using Node.induct generalizing named with
  | scalar value => simp
  | sequence items ih =>
    rw [stripped_sequence, stripped_sequence, List.map_map]
    exact congrArg _ (List.map_congr_left fun item hmem => ih item hmem false)
  | mapping entries ih =>
    rw [stripped_mapping, stripped_mapping, Entries.filter_mapValues, List.filter_filter,
      Entries.mapValues_mapValues]
    simp only [Bool.and_self]
    refine congrArg _ (Entries.mapValues_congr fun entry hmem => ?_)
    exact ih entry (List.mem_filter.1 hmem).1 _

theorem stripItems_eq_onItems (items : List Node) :
    stripItems items = Change.onItems strip items := by
  induction items with
  | nil => rfl
  | cons item rest ih => simp only [stripItems, Change.onItems, ih]

theorem stripValues_eq_onValues (entries : Entries Node) :
    stripValues entries = Change.onValues (fun _ => strip) entries := by
  induction entries with
  | nil => rfl
  | cons entry rest ih => simp only [stripValues, Change.onValues, ih]

/-- An entry that is removed counts, and then the mapping gets smaller. -/
theorem exact_stripEntries {entries : Entries Node}
    (h : ∀ entry ∈ entries, Change.Exact strip entry.2 ∧ Change.Exact stripNamed entry.2) :
    Change.Exact stripEntries entries := by
  induction entries with
  | nil => exact ⟨fun _ => rfl, fun _ => rfl⟩
  | cons entry rest ih =>
    obtain ⟨key, value⟩ := entry
    obtain ⟨⟨hstrip, hnamed⟩, hrest⟩ := List.forall_mem_cons.1 h
    have htail := ih hrest
    unfold Change.Exact at hstrip hnamed htail ⊢
    rw [stripEntries]
    cases hexample : isExampleKey key with
    | true =>
      have hshort : (stripEntries rest).1.length ≤ rest.length := by
        rw [stripEntries_fst, Entries.mapValues, List.length_map]
        exact List.length_filter_le _ rest
      constructor
      · intro hcount
        simp at hcount
      · intro hsame
        have hlength : (stripEntries rest).1.length = rest.length + 1 :=
          congrArg List.length hsame
        omega
    | false =>
      cases isNamingKey key with
      | true =>
        simp only [Bool.false_eq_true, if_false, if_true, Nat.add_eq_zero_iff, hnamed, htail,
          List.cons.injEq, Prod.mk.injEq, true_and]
      | false =>
        simp only [Bool.false_eq_true, if_false, Nat.add_eq_zero_iff, hstrip, htail,
          List.cons.injEq, Prod.mk.injEq, true_and]

theorem exact_strip_and_stripNamed (node : Node) :
    Change.Exact strip node ∧ Change.Exact stripNamed node := by
  induction node using Node.induct with
  | scalar value => exact ⟨⟨fun _ => rfl, fun _ => rfl⟩, ⟨fun _ => rfl, fun _ => rfl⟩⟩
  | sequence items ih =>
    have hitems := Change.exact_onItems fun item hmem => (ih item hmem).1
    unfold Change.Exact at hitems ⊢
    simp only [strip, stripNamed, stripItems_eq_onItems, Node.sequence.injEq]
    exact ⟨hitems, hitems⟩
  | mapping entries ih =>
    have hentries := exact_stripEntries ih
    have hvalues : Change.Exact (Change.onValues fun _ => strip) entries :=
      Change.exact_onValues fun entry hmem => (ih entry hmem).1
    unfold Change.Exact at hentries hvalues ⊢
    simp only [strip, stripNamed, stripValues_eq_onValues, Node.mapping.injEq]
    exact ⟨hentries, hvalues⟩

theorem exact_stripNamed (node : Node) : Change.Exact stripNamed node :=
  (exact_strip_and_stripNamed node).2

theorem honest_stripRegions : Change.Honest stripRegions := by
  have hnamed : Change.Honest stripNamed := Change.honest_of_exact exact_stripNamed
  apply Change.Honest.andThen
  · exact hnamed.atField _
  · exact (Change.honest_onValues fun _ => hnamed).inMapping.atField _

end ApiTidy.Examples
