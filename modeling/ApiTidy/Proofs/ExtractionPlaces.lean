import ApiTidy.Proofs.Address.Writing
import ApiTidy.Proofs.FailedExtraction
import ApiTidy.Proofs.Pointer

/-!
Where an extraction changes a document. Storing the schema and writing the reference are two writes,
so what is beside both places stays. The reference that was written is recognised, so that a second
extraction changes nothing.
-/
namespace ApiTidy

namespace Node
variable {address : String} {value tree written old new before : Node}
  {way spot : List Step} {segments later : List String} {keys : List String}

theorem under?_eq_reach? (keys : List String) (node : Node) :
    under? keys node = node.reach? (keySteps keys) := by
  induction keys generalizing node with
  | nil => exact (reach?_nil node).symm
  | cons key rest ih =>
    rw [under?, keySteps, List.map_cons, reach?_key]
    exact congrArg _ (funext fun child => ih child)

/-- Writing on from a node that segments lead to replaces that node. -/
theorem exists_replaced_of_place (hleads : Leads segments way tree old)
    (h : place address value (segments ++ later) tree = .ok () written) :
    ∃ new, place address value later old = .ok () new ∧ Replaced old new way tree written := by
  have hfollow : follow address segments tree = .ok old := follow_eq_ok.2 ⟨way, hleads⟩
  rw [place_append_of_follow hfollow] at h
  obtain ⟨other, found, new, hother, hplace, hreplaced⟩ := editAlong_eq_ok.1 h
  obtain ⟨rfl, rfl⟩ := hleads.unique hother
  exact ⟨new, hplace, hreplaced⟩

theorem Grown.trans {first second : List String} {after : Node} (h : Grown first before old)
    (hnext : Grown second old after) : Grown (first ++ second) before after := by
  cases h with
  | scalar value =>
    cases hnext
    exact .scalar value
  | sequence hlength =>
    cases hnext with
    | sequence hnext => exact .sequence (hnext.trans hlength)
  | mapping hkeys =>
    cases hnext with
    | mapping hnext => exact .mapping (by rw [hnext, hkeys, List.append_assoc])

/-- Replacing a node adds no key and no item outside it. -/
theorem Replaced.grown (h : Replaced old new way tree written)
    (hspot : tree.reach? spot = some before) (hbelow : ¬ way <+: spot) :
    ∃ after, written.reach? spot = some after ∧ Grown [] before after := by
  obtain hapart | ⟨habove, hne⟩ | ⟨rest, rfl⟩ := way_cases spot way
  · exact ⟨before, (h.reach?_beside hapart).trans hspot, .refl before⟩
  · obtain ⟨found, after, hfound, hafter, hgrown⟩ := h.grown_above habove hne
    obtain rfl := Option.some.inj (hfound.symm.trans hspot)
    exact ⟨after, hafter, hgrown⟩
  · exact absurd (List.prefix_append way rest) hbelow

/-- Writing under keys leads to the value by these keys. -/
theorem wrote_keys {stored : Node} (h : place address value keys tree = .ok () stored)
    (hkeys : under? keys stored = some value) : Wrote value tree stored (keySteps keys) := by
  obtain ⟨way, hleads, hwrote⟩ := place_wrote h
  rw [under?_eq_reach?] at hkeys
  obtain ⟨rfl, -⟩ := hleads.unique ⟨spelled_keySteps keys, hkeys⟩
  exact hwrote

/-- Only the keys themselves spell the steps to their values. -/
theorem eq_append_of_spelled {rest : List Step}
    (h : List.Forall₂ Step.Spelled (keySteps keys ++ rest) segments) :
    ∃ later, segments = keys ++ later := by
  induction keys generalizing segments with
  | nil => exact ⟨segments, rfl⟩
  | cons key keys ih =>
    obtain ⟨segment, others, hsegment, hothers, rfl⟩ := List.forall₂_cons_left_iff.1 h
    obtain ⟨later, rfl⟩ := ih hothers
    exact ⟨later, congrArg (· :: _) hsegment⟩

/-- Segments that led to a node still lead to one, unless it was below what was written. -/
theorem Wrote.leads_above {found : Node} (h : Wrote value tree written way)
    (hother : Leads segments spot tree found) (hbelow : ¬ way <+: spot) :
    ∃ node, Leads segments spot written node := by
  obtain hapart | ⟨⟨rest, rfl⟩, -⟩ | ⟨rest, rfl⟩ := way_cases spot way
  · exact ⟨found, h.leads hother hapart⟩
  · have hreached := h.reached
    rw [reach?_append] at hreached
    obtain ⟨node, hnode, -⟩ := Option.bind_eq_some_iff.1 hreached
    exact ⟨node, hother.spelled, hnode⟩
  · exact absurd (List.prefix_append way rest) hbelow

end Node

namespace Document
variable {doc changed : Document} {name address : String} {reference : Reference}

/-- The steps to a component from the root. -/
def componentWay (reference : Reference) : List Step := Node.keySteps (componentKeys reference)

/-- What an extraction from the end of a way leaves of a document: each address of a node apart from
that way and from the component leads to the same node, and elsewhere than in these two places no
key and no item changes its place. A key that is new comes last and is one of the component's. -/
structure ExtractedFrom (doc changed : Document) (reference : Reference) (way : List Step) :
    Prop where
  kept : ∀ other steps node, Node.Leads (Address.parse other).segments steps doc.root node →
    Node.Apart steps way → Node.Apart steps (componentWay reference) →
      changed.root.lookup other = .ok node
  order : ∀ spot before, doc.root.reach? spot = some before → ¬ way <+: spot →
    ¬ componentWay reference <+: spot → ∃ after added, changed.root.reach? spot = some after ∧
      Node.Grown added before after ∧
      (added = [] ∨ ∃ key, added = [key] ∧ spot ++ [.key key] <+: componentWay reference)

theorem ExtractedFrom.refl (doc : Document) (reference : Reference) (way : List Step) :
    ExtractedFrom doc doc reference way where
  kept _ steps _ hleads _ _ := Node.follow_eq_ok.2 ⟨steps, hleads⟩
  order _ before hbefore _ _ := ⟨before, [], hbefore, .refl before, .inl rfl⟩

/-- The reference takes the place of one node, which is the one that was extracted or, if the address
leads into the component, the component that was stored. -/
theorem exists_replaced_of_extraction {subtree : Node} {stored : Document} {way : List Step}
    (hwrote : Node.Wrote subtree doc.root stored.root (componentWay reference))
    (hleads : Node.Leads (Address.parse address).segments way doc.root subtree)
    (hset : Node.set address reference.toNode stored.root = .ok () changed.root) :
    ∃ spot old new, (spot = way ∨ spot = componentWay reference) ∧
      Node.Replaced old new spot stored.root changed.root := by
  by_cases hinside : componentWay reference <+: way
  · obtain ⟨rest, rfl⟩ := hinside
    obtain ⟨later, hsegments⟩ := Node.eq_append_of_spelled hleads.spelled
    have hcomponent : Node.Leads (componentKeys reference) (componentWay reference) stored.root
        subtree := ⟨Node.spelled_keySteps _, hwrote.reached⟩
    rw [Node.set, hsegments] at hset
    obtain ⟨new, -, hreplaced⟩ := Node.exists_replaced_of_place hcomponent hset
    exact ⟨_, subtree, new, .inr rfl, hreplaced⟩
  · obtain ⟨old, hold⟩ := hwrote.leads_above hleads hinside
    rw [Node.set, ← List.append_nil (Address.parse address).segments] at hset
    obtain ⟨new, -, hreplaced⟩ := Node.exists_replaced_of_place hold hset
    exact ⟨_, old, new, .inl rfl, hreplaced⟩

theorem extractedFrom_of_wrote {subtree : Node} {stored : Document} {way : List Step}
    (hwrote : Node.Wrote subtree doc.root stored.root (componentWay reference))
    (hleads : Node.Leads (Address.parse address).segments way doc.root subtree)
    (hset : Node.set address reference.toNode stored.root = .ok () changed.root) :
    ExtractedFrom doc changed reference way := by
  obtain ⟨place, old, new, hplace, hreplaced⟩ := exists_replaced_of_extraction hwrote hleads hset
  constructor
  case kept =>
    intro other steps node hother hway hcomponent
    have hapart : Node.Apart steps place := by
      rcases hplace with rfl | rfl
      · exact hway
      · exact hcomponent
    have hstored := hwrote.leads hother hcomponent
    exact Node.follow_eq_ok.2
      ⟨steps, hstored.spelled, (hreplaced.reach?_beside hapart).trans hstored.reached⟩
  case order =>
    intro spot before hbefore hway hcomponent
    have hbelow : ¬ place <+: spot := by
      rcases hplace with rfl | rfl
      · exact hway
      · exact hcomponent
    obtain ⟨between, added, hbetween, hgrown, hadded⟩ := hwrote.order spot before hbefore hcomponent
    obtain ⟨after, hafter, hlater⟩ := hreplaced.grown hbetween hbelow
    have hboth := hgrown.trans hlater
    rw [List.append_nil] at hboth
    exact ⟨after, added, hafter, hboth, hadded⟩

/-- An extraction that succeeds does so again with the same answer and then changes nothing, and all
that it changed is at the address and at the component. -/
theorem extractSchema_local_and_repeatable (hname : name ≠ "")
    (h : doc.extractSchema name address = .ok reference changed) :
    changed.extractSchema name address = .ok reference changed ∧
      ∃ way subtree, Node.Leads (Address.parse address).segments way doc.root subtree ∧
        ExtractedFrom doc changed ⟨.schemas, name⟩ way := by
  obtain ⟨rfl, subtree, hsubtree, hcases⟩ := extractSchema_eq_ok.1 h
  obtain ⟨way, hleads⟩ := Node.follow_eq_ok.1 hsubtree
  rcases hcases with ⟨-, rfl⟩ | ⟨-, old, stored, hstored, hset⟩
  · exact ⟨h, way, subtree, hleads, .refl _ _ _⟩
  · have hreferred : Reference.ofNode? (Reference.mk .schemas name).toNode =
        some ⟨.schemas, name⟩ := Reference.ofNode?_toNode hname
    have hcomponent := component?_setComponent hstored
    have hwrote := Node.wrote_keys (place_of_setComponent address hstored)
      (by rw [← target?_eq_under?]; exact hcomponent)
    refine ⟨extractSchema_eq_ok.2 ⟨rfl, _, Node.lookup_set hset, .inl ⟨hreferred, rfl⟩⟩, way,
      subtree, hleads, extractedFrom_of_wrote hwrote hleads hset⟩

/-- A description with a schema whose name needs an escape, and with another one. -/
def escaping : Document :=
  ⟨.mapping [("components", .mapping [("schemas", .mapping
    [("a/b", .mapping [("x", .mapping [("y", .null)])]), ("Q", .null)])])]⟩

theorem extractSchema_local_and_repeatable_escaping :
    ∃ changed, escaping.extractSchema "a/b" "components.schemas.a/b.x" =
        .ok ⟨.schemas, "a/b"⟩ changed ∧
      changed.extractSchema "a/b" "components.schemas.a/b.x" = .ok ⟨.schemas, "a/b"⟩ changed ∧
      changed.root.lookup "components.schemas.Q" = .ok .null := by
  have hextract : ∃ changed, escaping.extractSchema "a/b" "components.schemas.a/b.x" =
      .ok ⟨.schemas, "a/b"⟩ changed := ⟨_, rfl⟩
  obtain ⟨changed, hchanged⟩ := hextract
  obtain ⟨hagain, way, subtree, hleads, hfrom⟩ :=
    extractSchema_local_and_repeatable (by decide) hchanged
  have hway : Node.Leads (Address.parse "components.schemas.a/b.x").segments
      [.key "components", .key "schemas", .key "a/b", .key "x"] escaping.root
      (.mapping [("y", .null)]) := ⟨by decide, rfl⟩
  obtain ⟨rfl, -⟩ := hleads.unique hway
  have hother : Node.Leads (Address.parse "components.schemas.Q").segments
      [.key "components", .key "schemas", .key "Q"] escaping.root .null := ⟨by decide, rfl⟩
  exact ⟨changed, hchanged, hagain, hfrom.kept _ _ _ hother ⟨by decide, by decide⟩
    ⟨by decide, by decide⟩⟩

end Document
end ApiTidy
