import ApiTidy.Proofs.MediaTypes

/-!
Simplifying the keys of a content mapping one after another groups its entries at once. All entries
whose keys become one simple key are merged into the entry that had it already, or else into the
first of them, and that entry keeps its place. The simplification of the first key with parameters
changes neither the places of the groups nor what is merged in them, so the whole run does not.
-/
namespace ApiTidy.MediaTypes
variable {content : Entries Node} {key simple : String}

/-- The key under which an entry comes to stand. -/
def simpleKey (key : String) : String := if hasTypeParameters key then plainType key else key

/-- The key that leads the group of a simple key: the simple key itself, or else the first key that
becomes it. -/
def leader? (keys : List String) (simple : String) : Option String :=
  if simple ∈ keys then some simple else keys.find? (simpleKey · = simple)

def isLeader (keys : List String) (key : String) : Bool := leader? keys (simpleKey key) = some key

/-- The simple keys, each at the place of the key that leads its group. -/
def simpleKeys (keys : List String) : List String := (keys.filter (isLeader keys)).map simpleKey

/-- Whether a key has parameters, and is the simple key without them. -/
def isCutTo (simple key : String) : Bool := hasTypeParameters key && plainType key = simple

/-- The values of a group: that of the simple key itself, and then those of the keys with parameters,
in their order. -/
def members (content : Entries Node) (simple : String) : List Node :=
  (Entries.get? content simple).toList ++ (content.filter (isCutTo simple ·.1)).map (·.2)

/-- The first node, with the others merged into it one after another. -/
def mergeAll? : List Node → Option Node
  | [] => none
  | first :: rest => some (rest.foldl Node.merge first)

theorem mergeAll?_toList (node : Option Node) : mergeAll? node.toList = node := by
  cases node <;> rfl

theorem simpleKey_of_params (h : hasTypeParameters key = true) : simpleKey key = plainType key :=
  if_pos h

theorem simpleKey_of_plain (h : hasTypeParameters key = false) : simpleKey key = key := by
  simp [simpleKey, h]

theorem hasTypeParameters_simpleKey (key : String) : hasTypeParameters (simpleKey key) = false := by
  cases h : hasTypeParameters key with
  | true => rw [simpleKey_of_params h, hasTypeParameters_plainType]
  | false => rw [simpleKey_of_plain h, h]

theorem ne_of_params (h : hasTypeParameters key = true)
    (hsimple : hasTypeParameters simple = false) : key ≠ simple := by
  rintro rfl
  simp [h] at hsimple

theorem leader?_of_mem {keys : List String} (h : simple ∈ keys) :
    leader? keys simple = some simple :=
  if_pos h

/-- Every key is in the group of one that leads it. -/
theorem exists_leader {keys : List String} (h : key ∈ keys) :
    ∃ first ∈ keys, leader? keys (simpleKey key) = some first ∧ simpleKey first = simpleKey key := by
  unfold leader?
  split
  next hmem => exact ⟨_, hmem, rfl, simpleKey_of_plain (hasTypeParameters_simpleKey key)⟩
  next =>
    have hsome : (keys.find? (simpleKey · = simpleKey key)).isSome :=
      List.find?_isSome.2 ⟨key, h, by simp⟩
    obtain ⟨first, hfirst⟩ := Option.isSome_iff_exists.1 hsome
    exact ⟨first, List.mem_of_find?_eq_some hfirst, hfirst, by simpa using List.find?_some hfirst⟩

theorem mem_simpleKeys {keys : List String} :
    simple ∈ simpleKeys keys ↔ ∃ key ∈ keys, simpleKey key = simple := by
  simp only [simpleKeys, List.mem_map, List.mem_filter]
  constructor
  · rintro ⟨key, ⟨hmem, -⟩, hkey⟩
    exact ⟨key, hmem, hkey⟩
  · rintro ⟨key, hmem, rfl⟩
    obtain ⟨first, hfirst, hleads, hsame⟩ := exists_leader hmem
    exact ⟨first, ⟨hfirst, by simp [isLeader, hsame, hleads]⟩, hsame⟩

/-- Keys without parameters are simple, each in a group of its own. -/
theorem simpleKeys_of_plain {keys : List String} (h : ∀ key ∈ keys, hasTypeParameters key = false) :
    simpleKeys keys = keys := by
  have hleads : ∀ key ∈ keys, isLeader keys key = true := by
    intro key hmem
    simp [isLeader, leader?, simpleKey_of_plain (h key hmem), hmem]
  rw [simpleKeys, List.filter_eq_self.2 hleads, List.map_congr_left (g := id), List.map_id]
  exact fun key hmem => simpleKey_of_plain (h key hmem)

/-- A key that is not of a group does not change what leads it. -/
theorem leader?_around {front back : List String} (hne : key ≠ simple)
    (hkey : simpleKey key ≠ simple) :
    leader? (front ++ key :: back) simple = leader? (front ++ back) simple := by
  have hmem : simple ∈ front ++ key :: back ↔ simple ∈ front ++ back := by simp [Ne.symm hne]
  simp [leader?, hmem, List.find?_append, hkey]

/-- A key with parameters leads no group if its simple key is there. -/
theorem simpleKeys_absorbed {front back : List String} (hparams : hasTypeParameters key = true)
    (hplain : plainType key ∈ front ++ back) :
    simpleKeys (front ++ key :: back) = simpleKeys (front ++ back) := by
  have hsimple := simpleKey_of_params hparams
  have hmem : plainType key ∈ front ++ key :: back :=
    List.perm_middle.mem_iff.2 (List.mem_cons_of_mem key hplain)
  have hkey : isLeader (front ++ key :: back) key = false := by
    have hne := ne_of_params hparams (hasTypeParameters_plainType key)
    rw [isLeader, hsimple, leader?_of_mem hmem]
    simpa using hne.symm
  have hothers (other : String) :
      isLeader (front ++ key :: back) other = isLeader (front ++ back) other := by
    by_cases hsame : simpleKey other = plainType key
    · rw [isLeader, isLeader, hsame, leader?_of_mem hmem, leader?_of_mem hplain]
    · have hne := ne_of_params hparams (hasTypeParameters_simpleKey other)
      rw [isLeader, isLeader, leader?_around hne (hsimple.trans_ne (Ne.symm hsame))]
  rw [simpleKeys, simpleKeys, List.filter_append, List.filter_cons_of_neg (by simp [hkey]),
    ← List.filter_append, funext hothers]

section Renamed
variable {front back : List String}

/-- The first key with parameters leads its group if its simple key is not there. -/
theorem leader?_first (hparams : hasTypeParameters key = true)
    (hfront : ∀ other ∈ front, hasTypeParameters other = false)
    (hnew : plainType key ∉ front ++ back) :
    leader? (front ++ key :: back) (plainType key) = some key := by
  have hne := ne_of_params hparams (hasTypeParameters_plainType key)
  have hmiddle : plainType key ∉ front ++ key :: back := by
    rw [List.perm_middle.mem_iff, List.mem_cons, not_or]
    exact ⟨hne.symm, hnew⟩
  have hnone : front.find? (simpleKey · = plainType key) = none := by
    refine List.find?_eq_none.2 fun other hmem => ?_
    rw [simpleKey_of_plain (hfront other hmem), decide_eq_true_iff]
    exact fun heq => hnew (List.mem_append_left _ (heq ▸ hmem))
  simp only [leader?, if_neg hmiddle, List.find?_append, hnone, Option.none_or, List.find?_cons,
    simpleKey_of_params hparams, decide_true]

/-- The simple key takes the place of the first key with parameters, and leads its group. -/
theorem simpleKeys_renamed (hparams : hasTypeParameters key = true)
    (hgone : key ∉ front ++ back) (hfront : ∀ other ∈ front, hasTypeParameters other = false)
    (hnew : plainType key ∉ front ++ back) :
    simpleKeys (front ++ key :: back) = simpleKeys (front ++ plainType key :: back) := by
  have hsimple := simpleKey_of_params hparams
  have hplain := simpleKey_of_plain (hasTypeParameters_plainType key)
  have hold := leader?_first hparams hfront hnew
  have hrenamed : leader? (front ++ plainType key :: back) (plainType key) = some (plainType key) :=
    leader?_of_mem (List.mem_append_right _ List.mem_cons_self)
  have hkeyLeads : isLeader (front ++ key :: back) key = true := by
    rw [isLeader, hsimple, hold, decide_eq_true_iff]
  have hplainLeads : isLeader (front ++ plainType key :: back) (plainType key) = true := by
    rw [isLeader, hplain, hrenamed, decide_eq_true_iff]
  have hothers : ∀ other ∈ front ++ back, isLeader (front ++ key :: back) other =
      isLeader (front ++ plainType key :: back) other := by
    intro other hmem
    by_cases hsame : simpleKey other = plainType key
    · have hkey : key ≠ other := fun heq => hgone (heq ▸ hmem)
      have hplainKey : plainType key ≠ other := fun heq => hnew (heq ▸ hmem)
      simp only [isLeader, hsame, hold, hrenamed, Option.some.injEq, hkey, hplainKey]
    · have hne := ne_of_params hparams (hasTypeParameters_simpleKey other)
      rw [isLeader, isLeader, leader?_around hne (hsimple.trans_ne (Ne.symm hsame)),
        leader?_around (Ne.symm hsame) (hplain.trans_ne (Ne.symm hsame))]
  obtain ⟨hbefore, hafter⟩ := List.forall_mem_append.1 hothers
  rw [simpleKeys, simpleKeys, List.filter_append, List.filter_append, List.filter_congr hbefore,
    List.filter_cons_of_pos hkeyLeads, List.filter_congr hafter,
    List.filter_cons_of_pos hplainLeads, List.map_append, List.map_append, List.map_cons,
    List.map_cons, hsimple, hplain]

end Renamed

section Step
variable {front back : Entries Node} {media : Node}

/-- An entry takes the simple key in its place, or it is merged into the one that has that key. -/
theorem simplifyEntry_split (hnew : key ∉ Entries.keys front) :
    simplifyEntry (front ++ (key, media) :: back) key =
      match Entries.get? (front ++ back) (plainType key) with
      | some existing => Entries.insert (front ++ back) (plainType key) (existing.merge media)
      | none => front ++ (plainType key, media) :: back := by
  have hget : Entries.get? (front ++ (key, media) :: back) key = some media := by
    rw [Entries.get?_append, Entries.get?_eq_none_iff.2 hnew]
    simp
  cases hplain : Entries.get? (front ++ back) (plainType key) <;>
    simp only [simplifyEntry, hget, Entries.position?_split hnew, Entries.erase_split hnew, hplain,
      Entries.insertAt_append]

theorem isCutTo_of_plain (h : hasTypeParameters key = false) : isCutTo simple key = false := by
  simp [isCutTo, h]

theorem filter_isCutTo_of_plain (h : PlainContent content) :
    content.filter (isCutTo simple ·.1) = [] := by
  refine List.filter_eq_nil_iff.2 fun entry hmem => ?_
  rw [isCutTo_of_plain (h entry.1 (List.mem_map_of_mem hmem))]
  exact Bool.false_ne_true

/-- An entry that is not of a group does not change its members. -/
theorem members_around (hne : key ≠ simple) (hcut : isCutTo simple key = false) :
    members (front ++ (key, media) :: back) simple = members (front ++ back) simple := by
  rw [members, members, Entries.get?_around hne, Entries.filter_around hcut]

/-- Of the members with parameters, that of the first such key comes first. -/
theorem members_first (hparams : hasTypeParameters key = true) (hfront : PlainContent front) :
    members (front ++ (key, media) :: back) (plainType key) =
      (Entries.get? (front ++ back) (plainType key)).toList ++
        media :: ((front ++ back).filter (isCutTo (plainType key) ·.1)).map (·.2) := by
  have hcut : isCutTo (plainType key) key = true := by simp [isCutTo, hparams]
  have hnone : front.filter (isCutTo (plainType key) ·.1) = [] := filter_isCutTo_of_plain hfront
  rw [members, Entries.get?_around (ne_of_params hparams (hasTypeParameters_plainType key))]
  simp [List.filter_append, hnone, hcut]

/-- The group of the simplified key has one member less if the simple key was there, with the two
already merged. -/
theorem mergeAll?_members_own (hnew : key ∉ Entries.keys front)
    (hparams : hasTypeParameters key = true) (hfront : PlainContent front) :
    mergeAll? (members (simplifyEntry (front ++ (key, media) :: back) key) (plainType key)) =
      mergeAll? (members (front ++ (key, media) :: back) (plainType key)) := by
  have hplain : isCutTo (plainType key) (plainType key) = false :=
    isCutTo_of_plain (hasTypeParameters_plainType key)
  rw [simplifyEntry_split hnew, members_first hparams hfront]
  cases hexisting : Entries.get? (front ++ back) (plainType key) with
  | some existing =>
    simp only [members, Entries.get?_insert_self, Entries.filter_insert _ hplain]
    rfl
  | none =>
    have hget : Entries.get? (front ++ (plainType key, media) :: back) (plainType key) =
        some media := by
      rw [← Entries.insertAt_append,
        Entries.get?_insertAt_self (Entries.get?_eq_none_iff.1 hexisting)]
    simp only [members, hget, Entries.filter_around hplain]
    rfl

theorem members_simplifyEntry_of_ne (hnew : key ∉ Entries.keys front) (hne : key ≠ simple)
    (hgroup : plainType key ≠ simple) :
    members (simplifyEntry (front ++ (key, media) :: back) key) simple =
      members (front ++ (key, media) :: back) simple := by
  have hplain : isCutTo simple (plainType key) = false :=
    isCutTo_of_plain (hasTypeParameters_plainType key)
  have hcut : isCutTo simple key = false := by simp [isCutTo, hgroup]
  rw [simplifyEntry_split hnew, members_around hne hcut]
  cases Entries.get? (front ++ back) (plainType key) with
  | some existing =>
    simp only [members, Entries.get?_insert_of_ne (Ne.symm hgroup), Entries.filter_insert _ hplain]
  | none => rw [members_around hgroup hplain]

/-- What is merged in each group is the same after the simplification of the first key with
parameters. -/
theorem mergeAll?_members_simplifyEntry (hnew : key ∉ Entries.keys front)
    (hparams : hasTypeParameters key = true) (hfront : PlainContent front)
    (hsimple : hasTypeParameters simple = false) :
    mergeAll? (members (simplifyEntry (front ++ (key, media) :: back) key) simple) =
      mergeAll? (members (front ++ (key, media) :: back) simple) := by
  by_cases hgroup : plainType key = simple
  · exact hgroup ▸ mergeAll?_members_own hnew hparams hfront
  · rw [members_simplifyEntry_of_ne hnew (ne_of_params hparams hsimple) hgroup]

/-- The keys without the simplified one stand for the same simple keys if its simple key was there.
Otherwise the simple key stands in its place. -/
theorem simpleKeys_simplifyEntry (hgone : key ∉ Entries.keys (front ++ back))
    (hparams : hasTypeParameters key = true) (hfront : PlainContent front) :
    simpleKeys (Entries.keys (simplifyEntry (front ++ (key, media) :: back) key)) =
      simpleKeys (Entries.keys (front ++ (key, media) :: back)) := by
  rw [simplifyEntry_split (Entries.notMem_keys_front hgone), Entries.keys_around]
  cases hplain : Entries.get? (front ++ back) (plainType key) with
  | some existing =>
    have hmem := Entries.get?_isSome_iff.1 (Option.isSome_of_eq_some hplain)
    have hkeys := Entries.keys_insert_of_mem hmem (existing.merge media)
    rw [Entries.keys_append] at hmem hkeys
    rw [simpleKeys_absorbed hparams hmem, ← hkeys]
  | none =>
    have hmem := Entries.get?_eq_none_iff.1 hplain
    rw [Entries.keys_append] at hgone hmem
    rw [simpleKeys_renamed hparams hgone hfront hmem, Entries.keys_around]

theorem distinct_simplifyEntry (hnew : key ∉ Entries.keys front)
    (hothers : Entries.Distinct (front ++ back)) :
    Entries.Distinct (simplifyEntry (front ++ (key, media) :: back) key) := by
  rw [simplifyEntry_split hnew]
  cases hplain : Entries.get? (front ++ back) (plainType key) with
  | some existing =>
    have hmem := Entries.get?_isSome_iff.1 (Option.isSome_of_eq_some hplain)
    rw [Entries.Distinct, Entries.keys_insert_of_mem hmem]
    exact hothers
  | none =>
    simp only [← Entries.insertAt_append]
    exact hothers.insertAt (Entries.get?_eq_none_iff.1 hplain) _ _

end Step

/-- The first entry whose key has parameters, between the others. -/
theorem exists_first {rest : List String}
    (h : (Entries.keys content).filter hasTypeParameters = key :: rest) :
    ∃ front media back, content = front ++ (key, media) :: back ∧
      hasTypeParameters key = true ∧ PlainContent front := by
  obtain ⟨before, after, hkeys, hbefore, hparams, -⟩ := List.filter_eq_cons_iff.1 h
  obtain ⟨front, others, rfl, rfl, hothers⟩ := List.map_eq_append_iff.1 hkeys
  obtain ⟨entry, back, rfl, rfl, -⟩ := List.map_eq_cons_iff.1 hothers
  exact ⟨front, entry.2, back, rfl, hparams, fun other hmem => by simpa using hbefore other hmem⟩

/-- The entries form the same groups, in the same order and with the same values. -/
structure SameGroups (before after : Entries Node) : Prop where
  distinct : Entries.Distinct after
  keys : simpleKeys (Entries.keys after) = simpleKeys (Entries.keys before)
  merged (simple : String) (h : hasTypeParameters simple = false) :
    mergeAll? (members after simple) = mergeAll? (members before simple)

theorem SameGroups.refl (h : Entries.Distinct content) : SameGroups content content :=
  ⟨h, rfl, fun _ _ => rfl⟩

theorem SameGroups.trans {before between after : Entries Node} (hfirst : SameGroups before between)
    (hsecond : SameGroups between after) : SameGroups before after where
  distinct := hsecond.distinct
  keys := hsecond.keys.trans hfirst.keys
  merged simple h := (hsecond.merged simple h).trans (hfirst.merged simple h)

theorem sameGroups_simplifyEntry (hdistinct : Entries.Distinct content) {rest : List String}
    (h : (Entries.keys content).filter hasTypeParameters = key :: rest) :
    SameGroups content (simplifyEntry content key) := by
  obtain ⟨front, media, back, rfl, hparams, hfront⟩ := exists_first h
  have hgone := hdistinct.notMem_around
  have hnew := Entries.notMem_keys_front hgone
  have hothers : Entries.Distinct (front ++ back) :=
    (((List.sublist_cons_self (key, media) back).append_left front).map _).nodup hdistinct
  exact
    { distinct := distinct_simplifyEntry hnew hothers
      keys := simpleKeys_simplifyEntry hgone hparams hfront
      merged := fun _ => mergeAll?_members_simplifyEntry hnew hparams hfront }

/-- The keys with parameters that are left over are those that were noted down at the start. -/
theorem sameGroups_foldl_simplifyEntry {pending : List String}
    (hdistinct : Entries.Distinct content)
    (h : (Entries.keys content).filter hasTypeParameters = pending) :
    SameGroups content (pending.foldl simplifyEntry content) := by
  induction pending generalizing content with
  | nil => exact .refl hdistinct
  | cons key rest ih =>
    have hstep := sameGroups_simplifyEntry hdistinct h
    exact hstep.trans (ih hstep.distinct (filter_keys_simplifyEntry h))

/-- A content without parameters is the outcome of its own grouping. -/
theorem mergeAll?_members_of_plain (h : PlainContent content) :
    mergeAll? (members content simple) = Entries.get? content simple := by
  rw [members, filter_isCutTo_of_plain h, List.map_nil, List.append_nil, mergeAll?_toList]

/-- There is one entry for each simple key, at the place of the key that leads its group, with the
merged values of the group. -/
structure Grouped (content result : Entries Node) : Prop where
  distinct : Entries.Distinct result
  mem_keys (simple : String) :
    simple ∈ Entries.keys result ↔ ∃ key ∈ Entries.keys content, simpleKey key = simple
  keys : Entries.keys result = simpleKeys (Entries.keys content)
  merged {simple : String} (h : simple ∈ Entries.keys result) :
    Entries.get? result simple = mergeAll? (members content simple)

/-- The run groups the entries at once, and counts the keys with parameters. -/
theorem simplifyContent_groups (h : Entries.Distinct content) :
    Grouped content (simplifyContent content).1 ∧
      (simplifyContent content).2 = (Entries.keys content).countP hasTypeParameters := by
  have hsame : SameGroups content (simplifyContent content).1 :=
    sameGroups_foldl_simplifyEntry h rfl
  have hplain := plainContent_simplifyContent content
  have hkeys := simpleKeys_of_plain hplain ▸ hsame.keys
  refine ⟨⟨hsame.distinct, fun simple => ?_, hkeys, fun hmem => ?_⟩, ?_⟩
  · rw [hkeys, mem_simpleKeys]
  · rw [← mergeAll?_members_of_plain hplain, hsame.merged _ (hplain _ hmem)]
  · exact List.countP_eq_length_filter.symm

/-- A group whose simple key comes last, one whose simple key is not there, and one of its own. -/
def versions : Entries Node :=
  [("text/xml; version=1", .mapping [("schema", .ofString "first"), ("example", .ofString "old")]),
    ("text/plain", .null),
    ("text/csv;version=1", .mapping [("schema", .ofString "rows")]),
    ("text/xml ;version=2", .mapping [("encoding", .ofString "utf-8")]),
    ("text/xml", .mapping [("schema", .ofString "last")]),
    ("text/csv ; version=2", .mapping [("schema", .ofString "cells"), ("header", .null)])]

theorem simplifyContent_groups_versions :
    Grouped versions
      [("text/plain", .null),
        ("text/csv", .mapping [("schema", .ofString "rows"), ("header", .null)]),
        ("text/xml", .mapping [("schema", .ofString "last"), ("example", .ofString "old"),
          ("encoding", .ofString "utf-8")])] ∧
      (Entries.keys versions).countP hasTypeParameters = 4 := by
  have hdistinct : Entries.Distinct versions := by
    rw [Entries.Distinct]
    decide
  obtain ⟨hgroups, hcount⟩ := simplifyContent_groups hdistinct
  exact ⟨hgroups, hcount.symm⟩

end ApiTidy.MediaTypes
