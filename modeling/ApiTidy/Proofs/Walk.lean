import ApiTidy.Node.Walk
import ApiTidy.Proofs.Change

/-!
Walks that change mappings and count. A change of trees that makes its edits in a mapping first, and
then in the values that are left there, is the walk over the tree with these edits, parents before
children. The other order rewrites what is below a mapping before the mapping itself.
-/
namespace ApiTidy
variable {α : Type}

/-- A change of values is one of the entries as items. -/
theorem Change.onValues_eq_onItems (change : String → Change α) (entries : Entries α) :
    onValues change entries = onItems (fun entry =>
      ((entry.1, (change entry.1 entry.2).1), (change entry.1 entry.2).2)) entries := by
  induction entries with
  | nil => rfl
  | cons entry rest ih => simp only [onValues, onItems, ih]

/-- Two changes of all values are one, value by value. -/
theorem Change.andThen_onValues (first second : String → Change α) :
    andThen (onValues first) (onValues second) =
      onValues fun key => andThen (first key) (second key) := by
  funext entries
  induction entries with
  | nil => rfl
  | cons entry rest ih =>
    have htree := congrArg Prod.fst ih
    have hcount := congrArg Prod.snd ih
    simp only [andThen] at htree hcount
    refine Prod.ext ?_ ?_
    · simp only [andThen, onValues, htree]
    · simp only [andThen, onValues, ← hcount]
      omega

/-- With distinct keys the value under a key is the only one of an entry with that key. -/
theorem Change.atKey_eq_onValues {entries : Entries α} (h : Entries.Distinct entries) (key : String)
    (change : Change α) :
    atKey key change entries = onValues (fun name => if name = key then change else keep) entries := by
  induction entries with
  | nil => rfl
  | cons entry rest ih =>
    obtain ⟨name, value⟩ := entry
    obtain ⟨hfirst, hrest⟩ := List.nodup_cons.1 h
    by_cases hkey : name = key
    · subst hkey
      have hothers : Still (onValues fun other => if other = name then change else keep) rest := by
        refine still_onValues fun other hmem => ?_
        have hmem : other.1 ∈ Entries.keys rest := List.mem_map_of_mem hmem
        have hne : other.1 ≠ name := fun heq => hfirst (heq ▸ hmem)
        rw [if_neg hne]
        rfl
      unfold Still at hothers
      simp [atKey, onValues, hothers, Entries.insert]
    · have hlater := ih hrest
      unfold atKey at hlater ⊢
      rw [Entries.get?_cons, if_neg hkey]
      simp only [onValues, if_neg hkey, keep, ← hlater]
      cases Entries.get? rest key <;> simp [Entries.insert, hkey]

namespace Node

/-- A change of mappings as a visit that adds up the counts. -/
def counted (change : Change (Entries Node)) : Entries Node → Nat → Entries Node × Nat :=
  fun entries count => ((change entries).1, count + (change entries).2)

/-- Carrying a count through a list adds up the counts of its items. -/
theorem carry_counted (step : α → Nat → α × Nat) (change : Change α) {items : List α}
    (h : ∀ item ∈ items, ∀ count, step item count = ((change item).1, count + (change item).2))
    (count : Nat) :
    carry step items count =
      ((Change.onItems change items).1, count + (Change.onItems change items).2) := by
  induction items generalizing count with
  | nil => rfl
  | cons item rest ih =>
    obtain ⟨hitem, hrest⟩ := List.forall_mem_cons.1 h
    simp only [carry, hitem, ih hrest, Change.onItems, Nat.add_assoc]

theorem depthItems_le_iff {items : List Node} {bound : Nat} :
    depthItems items ≤ bound ↔ ∀ item ∈ items, item.depth ≤ bound := by
  induction items with
  | nil => simp [depthItems]
  | cons item rest ih => rw [depthItems, Nat.max_le, ih, List.forall_mem_cons]

theorem depthEntries_le_iff {entries : Entries Node} {bound : Nat} :
    depthEntries entries ≤ bound ↔ ∀ entry ∈ entries, entry.2.depth ≤ bound := by
  induction entries with
  | nil => simp [depthEntries]
  | cons entry rest ih => rw [depthEntries, Nat.max_le, ih, List.forall_mem_cons]

/-- A change that edits a mapping, by a visit that makes it no deeper, and then what is left there. -/
structure ParentsFirst (visit : Change (Entries Node)) (change : Change Node) : Prop where
  scalar (value : Scalar) : change (.scalar value) = (.scalar value, 0)
  sequence (items : List Node) :
    change (.sequence items) = Change.inSequence (Change.onItems change) (.sequence items)
  mapping {entries : Entries Node} (h : (Node.mapping entries).WellFormed) :
    change (.mapping entries) =
      Change.inMapping (Change.andThen visit (Change.onValues fun _ => change)) (.mapping entries)
  wellFormed {entries : Entries Node} (h : (Node.mapping entries).WellFormed) :
    (Node.mapping (visit entries).1).WellFormed
  depth {entries : Entries Node} (h : (Node.mapping entries).WellFormed) :
    depthEntries (visit entries).1 ≤ depthEntries entries

namespace ParentsFirst
variable {visit : Change (Entries Node)} {change : Change Node}

/-- The walk makes the edits and counts them, down to any depth that the tree does not exceed. -/
theorem walkDown (h : ParentsFirst visit change) {fuel : Nat} {node : Node}
    (hnode : node.WellFormed) (hdepth : node.depth ≤ fuel) (count : Nat) :
    walkDown (counted visit) fuel node count =
      ((change node).1, count + (change node).2) := by
  -- The visit may put other values into the mapping, so the induction is on the depth.
  induction fuel generalizing node count with
  | zero =>
    cases node with
    | scalar value => simp [Node.walkDown, h.scalar]
    | sequence items => simp [Node.depth] at hdepth
    | mapping entries => simp [Node.depth] at hdepth
  | succ fuel ih =>
    cases node with
    | scalar value => simp [Node.walkDown, h.scalar]
    | sequence items =>
      have hitems := wellFormed_sequence.1 hnode
      have hbelow := depthItems_le_iff.1 (Nat.le_of_succ_le_succ hdepth)
      have hcarry := carry_counted (Node.walkDown (counted visit) fuel) change
        fun item hmem => ih (hitems item hmem) (hbelow item hmem)
      simp only [Node.walkDown, hcarry, h.sequence, Change.inSequence]
    | mapping entries =>
      have hvalues := (wellFormed_mapping.1 (h.wellFormed hnode)).2
      have hbelow := depthEntries_le_iff.1
        (Nat.le_trans (h.depth hnode) (Nat.le_of_succ_le_succ hdepth))
      simp only [Node.walkDown, counted]
      rw [carry_counted _ fun entry => ((entry.1, (change entry.2).1), (change entry.2).2)]
      · simp only [h.mapping hnode, Change.inMapping, Change.andThen,
          Change.onValues_eq_onItems (fun _ => change), Nat.add_assoc]
      · intro entry hmem state
        simp only [ih (hvalues entry hmem) (hbelow entry hmem)]

theorem walkMappings (h : ParentsFirst visit change) {node : Node} (hnode : node.WellFormed) :
    node.walkMappings (counted visit) 0 = change node := by
  rw [Node.walkMappings, h.walkDown hnode (Nat.le_refl _), Nat.zero_add]

end ParentsFirst

mutual

/-- Rewrite all mappings of a tree, children before parents. -/
def rewriteUp (rewrite : Entries Node → Entries Node) : Node → Node
  | .scalar value => .scalar value
  | .sequence items => .sequence (rewriteUpItems rewrite items)
  | .mapping entries => .mapping (rewrite (rewriteUpEntries rewrite entries))

def rewriteUpItems (rewrite : Entries Node → Entries Node) : List Node → List Node
  | [] => []
  | item :: rest => rewriteUp rewrite item :: rewriteUpItems rewrite rest

def rewriteUpEntries (rewrite : Entries Node → Entries Node) :
    List (String × Node) → List (String × Node)
  | [] => []
  | (key, value) :: rest => (key, rewriteUp rewrite value) :: rewriteUpEntries rewrite rest

end

theorem rewriteUpItems_eq_map (rewrite : Entries Node → Entries Node) (items : List Node) :
    rewriteUpItems rewrite items = items.map (rewriteUp rewrite) := by
  induction items with
  | nil => rfl
  | cons item rest ih => simp [rewriteUpItems, ih]

theorem rewriteUpEntries_eq_mapValues (rewrite : Entries Node → Entries Node)
    (entries : Entries Node) :
    rewriteUpEntries rewrite entries = Entries.mapValues (fun _ => rewriteUp rewrite) entries := by
  induction entries with
  | nil => rfl
  | cons entry rest ih => simp [rewriteUpEntries, ih]

@[simp] theorem rewriteUp_scalar (rewrite : Entries Node → Entries Node) (value : Scalar) :
    rewriteUp rewrite (.scalar value) = .scalar value := rfl

@[simp] theorem rewriteUp_sequence (rewrite : Entries Node → Entries Node) (items : List Node) :
    rewriteUp rewrite (.sequence items) = .sequence (items.map (rewriteUp rewrite)) :=
  congrArg Node.sequence (rewriteUpItems_eq_map rewrite items)

@[simp] theorem rewriteUp_mapping (rewrite : Entries Node → Entries Node) (entries : Entries Node) :
    rewriteUp rewrite (.mapping entries) =
      .mapping (rewrite (Entries.mapValues (fun _ => rewriteUp rewrite) entries)) :=
  congrArg (fun below => Node.mapping (rewrite below)) (rewriteUpEntries_eq_mapValues rewrite entries)

end Node
end ApiTidy
