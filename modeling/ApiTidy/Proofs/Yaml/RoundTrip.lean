import ApiTidy.Proofs.Yaml.Tree

/-!
A tree that is written as YAML is read back as it was. Its text has neither anchors nor aliases, so
the tree of the text is its value, and each scalar of the value is what its spelling means.
-/
namespace ApiTidy.Yaml

mutual

/-- The value of a node as it is written. -/
def valueOf : Node → Value
  | .scalar value => .scalar none (styleOf value) (String.ofList (spelling value))
  | .sequence items => .sequence none (valuesOf items)
  | .mapping entries => .mapping none (valuePairsOf entries)

def valuesOf : List Node → List Value
  | [] => []
  | item :: rest => valueOf item :: valuesOf rest

def valuePairsOf : List (String × Node) → List (Value × Value)
  | [] => []
  | (key, value) :: rest =>
    (.scalar none (.ofText key.toList) key, valueOf value) :: valuePairsOf rest

end

/-- Without anchors, numbering leaves the tree and the known names as they are. -/
def Unnamed (node : Node) : Prop :=
  ∀ names : Entries Nat, (treeOf node).number names = .ok (treeOf node, names)

theorem numberItems_treesOf {items : List Node} (h : ∀ item ∈ items, Unnamed item)
    (names : Entries Nat) : Tree.numberItems names (treesOf items) = .ok (treesOf items, names) := by
  induction items with
  | nil => rfl
  | cons item others ih =>
    obtain ⟨hitem, hothers⟩ := List.forall_mem_cons.1 h
    rw [treesOf, Tree.numberItems]
    exact Except.bind_eq_ok.2 ⟨_, hitem names, Except.bind_eq_ok.2 ⟨_, ih hothers, rfl⟩⟩

theorem numberEntries_pairsOf {entries : Entries Node} (h : ∀ entry ∈ entries, Unnamed entry.2)
    (names : Entries Nat) :
    Tree.numberEntries names (pairsOf entries) = .ok (pairsOf entries, names) := by
  induction entries with
  | nil => rfl
  | cons entry others ih =>
    obtain ⟨hvalue, hothers⟩ := List.forall_mem_cons.1 h
    rw [pairsOf, Tree.numberEntries]
    exact Except.bind_eq_ok.2 ⟨_, rfl, Except.bind_eq_ok.2 ⟨_, hvalue names,
      Except.bind_eq_ok.2 ⟨_, ih hothers, rfl⟩⟩⟩

theorem unnamed (node : Node) : Unnamed node := by
  intro names
  induction node using Node.induct generalizing names with
  | scalar value => rfl
  | sequence items ih =>
    rw [treeOf, Tree.number]
    exact Except.bind_eq_ok.2 ⟨_, numberItems_treesOf ih names, rfl⟩
  | mapping entries ih =>
    rw [treeOf, Tree.number]
    exact Except.bind_eq_ok.2 ⟨_, numberEntries_pairsOf ih names, rfl⟩

section Expand
variable (targets : List (Nat × Tree Nat)) (limit : Nat)

/-- A tree without aliases that may be opened is expanded to the value of its node. -/
def Expands (node : Node) : Prop :=
  ∀ depth count, node.depth ≤ depth →
    (treeOf node).expand targets limit depth count = .ok (valueOf node, count)

variable {targets limit} {depth : Nat}

theorem expand_treesOf {items : List Node} (h : ∀ item ∈ items, Expands targets limit item)
    (hdepth : Node.depthItems items ≤ depth) (count : Nat) :
    (treesOf items).mapM (Tree.expand targets limit depth) count = .ok (valuesOf items, count) := by
  induction items with
  | nil => rfl
  | cons item others ih =>
    obtain ⟨hitem, hothers⟩ := List.forall_mem_cons.1 h
    obtain ⟨hfirst, hlater⟩ := Nat.max_le.1 hdepth
    rw [treesOf, List.mapM_cons]
    exact Except.bind_eq_ok.2 ⟨_, hitem depth count hfirst,
      Except.bind_eq_ok.2 ⟨_, ih hothers hlater, rfl⟩⟩

theorem expand_pairsOf {entries : Entries Node}
    (h : ∀ entry ∈ entries, Expands targets limit entry.2)
    (hdepth : Node.depthEntries entries ≤ depth) (count : Nat) :
    ((pairsOf entries).mapM fun (key, value) => do
      return (← Tree.expand targets limit depth key, ← Tree.expand targets limit depth value)) count =
        .ok (valuePairsOf entries, count) := by
  induction entries with
  | nil => rfl
  | cons entry others ih =>
    obtain ⟨hvalue, hothers⟩ := List.forall_mem_cons.1 h
    obtain ⟨hfirst, hlater⟩ := Nat.max_le.1 hdepth
    have hkey :
        Tree.expand targets limit depth (.scalar .none (.ofText entry.1.toList) entry.1) count =
          .ok (.scalar none (.ofText entry.1.toList) entry.1, count) := by
      cases depth <;> rfl
    have hread := hvalue depth count hfirst
    rw [pairsOf, List.mapM_cons]
    refine Except.bind_eq_ok.2 ⟨((_, _), count), ?_, Except.bind_eq_ok.2 ⟨_, ih hothers hlater, rfl⟩⟩
    exact Except.bind_eq_ok.2 ⟨_, hkey, Except.bind_eq_ok.2 ⟨_, hread, rfl⟩⟩

theorem expands (node : Node) : Expands targets limit node := by
  induction node using Node.induct with
  | scalar value =>
    intro depth count _
    cases depth <;> rfl
  | sequence items ih =>
    intro depth count hdepth
    cases depth with
    | zero => cases hdepth
    | succ depth =>
      have hitems := expand_treesOf ih (Nat.le_of_succ_le_succ hdepth) count
      exact Except.bind_eq_ok.2 ⟨_, hitems, rfl⟩
  | mapping entries ih =>
    intro depth count hdepth
    cases depth with
    | zero => cases hdepth
    | succ depth =>
      have hentries := expand_pairsOf ih (Nat.le_of_succ_le_succ hdepth) count
      exact Except.bind_eq_ok.2 ⟨_, hentries, rfl⟩

end Expand

theorem ofTree_treeOf {node : Node} (h : node.depth ≤ maxDepth) :
    Value.ofTree (treeOf node) = .ok (valueOf node) := by
  refine Except.bind_eq_ok.2 ⟨_, unnamed node [], ?_⟩
  exact Except.map_eq_ok.2 ⟨_, expands node maxDepth 0 h, rfl⟩

/-- A value is the node that is written as it. -/
def Regained (node : Node) : Prop := (valueOf node).toNode Value.spelledKey = .ok node

theorem toItems_valuesOf {items : List Node} (h : ∀ item ∈ items, Regained item) :
    Value.toItems Value.spelledKey (valuesOf items) = .ok items := by
  induction items with
  | nil => rfl
  | cons item others ih =>
    obtain ⟨hitem, hothers⟩ := List.forall_mem_cons.1 h
    rw [valuesOf, Value.toItems]
    exact Except.bind_eq_ok.2 ⟨_, hitem, Except.bind_eq_ok.2 ⟨_, ih hothers, rfl⟩⟩

theorem toPairs_valuePairsOf {entries : Entries Node} (h : ∀ entry ∈ entries, Regained entry.2) :
    Value.toPairs Value.spelledKey (valuePairsOf entries) = .ok entries := by
  induction entries with
  | nil => rfl
  | cons entry others ih =>
    obtain ⟨hvalue, hothers⟩ := List.forall_mem_cons.1 h
    rw [valuePairsOf, Value.toPairs]
    exact Except.bind_eq_ok.2 ⟨_, rfl, Except.bind_eq_ok.2 ⟨_, hvalue,
      Except.bind_eq_ok.2 ⟨_, ih hothers, rfl⟩⟩⟩

theorem regained {node : Node} (hwell : node.WellFormed) (hnumbers : node.Integral) :
    Regained node := by
  induction node using Node.induct with
  | scalar value =>
    have hvalue := untaggedScalar_spelling (Node.integral_scalar.1 hnumbers)
    exact Except.map_eq_ok.2 ⟨value, hvalue, rfl⟩
  | sequence items ih =>
    have hitems := Node.wellFormed_sequence.1 hwell
    have hintegral := Node.integral_sequence.1 hnumbers
    have hread := toItems_valuesOf fun item hmem =>
      ih item hmem (hitems item hmem) (hintegral item hmem)
    exact Except.bind_unit_eq_ok.2 ⟨rfl, Except.bind_eq_ok.2 ⟨_, hread, rfl⟩⟩
  | mapping entries ih =>
    obtain ⟨hkeys, hvalues⟩ := Node.wellFormed_mapping.1 hwell
    have hintegral := Node.integral_mapping.1 hnumbers
    have hread := toPairs_valuePairsOf fun entry hmem =>
      ih entry hmem (hvalues entry hmem) (hintegral entry hmem)
    refine Except.bind_unit_eq_ok.2 ⟨rfl, Except.bind_eq_ok.2 ⟨_, hread, ?_⟩⟩
    rw [Entries.ofPairs_of_distinct hkeys]
    rfl

/-- A tree without floats that may be opened is read back from its text as it was. -/
theorem parse_render {node : Node} (hwell : node.WellFormed) (hnumbers : node.Integral)
    (hdepth : node.depth ≤ maxDepth) : parse (render node) = .ok node := by
  have hvalue : Value.parse? (render node) = .ok (some (valueOf node)) := by
    refine Except.bind_eq_ok.2 ⟨_, tokens_render hnumbers, ?_⟩
    refine Except.bind_eq_ok.2 ⟨_, readDocument_tokensOf node, ?_⟩
    exact Except.bind_eq_ok.2 ⟨_, ofTree_treeOf hdepth, rfl⟩
  exact Except.bind_eq_ok.2 ⟨_, hvalue, regained hwell hnumbers⟩

end ApiTidy.Yaml
