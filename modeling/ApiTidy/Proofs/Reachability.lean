import ApiTidy.Proofs.Components

/-!
The search for reachable components finds exactly the least set that holds what the roots refer to
and what its own components refer to. The search looks at one reference after another; what it may
still have to look at gets shorter each time, so its fuel is never used up.
-/
namespace ApiTidy.Document
variable {doc : Document} {kinds : List ComponentKind}

/-- The components of the given kinds that are in use: those that something outside these kinds
refers to, and those that a component in use refers to. -/
inductive Live (doc : Document) (kinds : List ComponentKind) : Reference → Prop
  | outside {entries : Entries Node} {key : String} {value : Node} {reference : Reference} :
      doc.root = .mapping entries → (key, value) ∈ entries → key ≠ componentsKey →
      reference ∈ value.references → reference.kind ∈ kinds → Live doc kinds reference
  | category {categories : Entries Node} {category : String} {value : Node}
      {reference : Reference} :
      doc.root.field? componentsKey = some (.mapping categories) →
      (category, value) ∈ categories → (∀ kind ∈ kinds, kind.key ≠ category) →
      reference ∈ value.references → reference.kind ∈ kinds → Live doc kinds reference
  | step {source : Reference} {component : Node} {reference : Reference} :
      Live doc kinds source → doc.target? source = some component →
      reference ∈ component.references → reference.kind ∈ kinds → Live doc kinds reference

theorem Live.kind_mem {reference : Reference} (h : Live doc kinds reference) :
    reference.kind ∈ kinds := by
  cases h with
  | outside _ _ _ _ hkind => exact hkind
  | category _ _ _ _ hkind => exact hkind
  | step _ _ _ hkind => exact hkind

theorem isGiven_iff {category : String} :
    isGiven kinds category = true ↔ ∃ kind ∈ kinds, kind.key = category := by
  unfold isGiven
  constructor
  · intro h
    obtain ⟨kind, hkind, hmem⟩ := Option.any_eq_true _ _ |>.1 h
    exact ⟨kind, List.contains_iff_mem.1 hmem, ComponentKind.key_of_ofKey? hkind⟩
  · rintro ⟨kind, hmem, rfl⟩
    simp [ComponentKind.ofKey?_key, hmem]

/-- The references of the roots are those that make a component live at once. -/
theorem live_of_mem_rootReferences {reference : Reference}
    (h : reference ∈ doc.rootReferences kinds) (hkind : reference.kind ∈ kinds) :
    Live doc kinds reference := by
  rcases List.mem_append.1 h with hout | hcat
  · obtain ⟨⟨key, value⟩, hentry, href⟩ := List.mem_flatMap.1 hout
    obtain ⟨hmem, hkey⟩ := List.mem_filter.1 hentry
    cases hroot : doc.root with
    | scalar _ => simp [hroot, Node.entries?] at hmem
    | sequence _ => simp [hroot, Node.entries?] at hmem
    | mapping entries =>
      rw [hroot] at hmem
      exact .outside hroot hmem (by simpa using hkey) href hkind
  · obtain ⟨⟨category, value⟩, hentry, href⟩ := List.mem_flatMap.1 hcat
    obtain ⟨hmem, hfree⟩ := List.mem_filter.1 hentry
    have hnot : ∀ kind ∈ kinds, kind.key ≠ category := by
      intro kind hmem hkey
      have hgiven := isGiven_iff.2 ⟨kind, hmem, hkey⟩
      simp [hgiven] at hfree
    unfold region? at hmem
    cases hregion : doc.root.field? componentsKey with
    | none => simp [hregion] at hmem
    | some region =>
      cases region with
      | scalar _ => simp [hregion, Node.entries?] at hmem
      | sequence _ => simp [hregion, Node.entries?] at hmem
      | mapping categories =>
        rw [hregion] at hmem
        exact .category hregion hmem hnot href hkind

theorem mem_targetReferences {source reference : Reference} :
    reference ∈ doc.targetReferences source ↔
      ∃ component, doc.target? source = some component ∧ reference ∈ component.references := by
  unfold targetReferences
  cases doc.target? source <;> simp

theorem mem_componentsOf {reference : Reference} :
    reference ∈ doc.componentsOf kinds ↔
      reference.kind ∈ kinds ∧ (doc.target? reference).isSome := by
  obtain ⟨kind, name⟩ := reference
  have hname : name ∈ doc.componentNames kind ↔ (doc.component? kind name).isSome := by
    unfold componentNames component?
    cases doc.components? kind with
    | none => simp [Entries.keys]
    | some components => simp [← Entries.get?_isSome_iff]
  simp [componentsOf, target?, hname]

/-- A set of references that contains what the roots and its own components refer to. -/
structure Closed (doc : Document) (kinds : List ComponentKind) (found : List Reference) :
    Prop where
  roots : ∀ reference ∈ doc.rootReferences kinds, reference.kind ∈ kinds → reference ∈ found
  targets : ∀ source ∈ found, ∀ reference ∈ doc.targetReferences source,
    reference.kind ∈ kinds → reference ∈ found

/-- A closed set holds everything that is live. -/
theorem Closed.mem_of_live {found : List Reference} (hclosed : Closed doc kinds found)
    {reference : Reference} (h : Live doc kinds reference) : reference ∈ found := by
  induction h with
  | @outside entries key value _ hroot hmem hkey href hkind =>
    refine hclosed.roots _ ?_ hkind
    refine List.mem_append_left _
      (List.mem_flatMap.2 ⟨(key, value), List.mem_filter.2 ⟨?_, ?_⟩, href⟩)
    · simpa [hroot, Node.entries?] using hmem
    · simpa using hkey
  | @category categories category value _ hregion hmem hnot href hkind =>
    refine hclosed.roots _ ?_ hkind
    refine List.mem_append_right _
      (List.mem_flatMap.2 ⟨(category, value), List.mem_filter.2 ⟨?_, ?_⟩, href⟩)
    · simpa [region?, hregion, Node.entries?] using hmem
    · have hfree : ¬ isGiven kinds category = true := by
        intro hgiven
        obtain ⟨kind, hmem, hkey⟩ := isGiven_iff.1 hgiven
        exact hnot kind hmem hkey
      simpa using hfree
  | step _ htarget href hkind ih =>
    exact hclosed.targets _ ih _ (mem_targetReferences.2 ⟨_, htarget, href⟩) hkind

/-- Only live references are followed. -/
theorem follow_sound {fuel : Nat} {frontier reached : List Reference}
    (hfrontier : ∀ reference ∈ frontier, reference.kind ∈ kinds → Live doc kinds reference)
    (hreached : ∀ reference ∈ reached, Live doc kinds reference) :
    ∀ reference ∈ follow doc kinds fuel frontier reached, Live doc kinds reference := by
  induction fuel generalizing frontier reached with
  | zero => exact hreached
  | succ fuel ih =>
    cases frontier with
    | nil => exact hreached
    | cons first rest =>
      have hrest : ∀ reference ∈ rest, reference.kind ∈ kinds → Live doc kinds reference :=
        fun reference hmem => hfrontier reference (List.mem_cons_of_mem _ hmem)
      rw [follow]
      split
      next => exact ih hrest hreached
      next hnew =>
        have hkind : first.kind ∈ kinds := by
          simp only [Bool.or_eq_true, not_or] at hnew
          simpa using hnew.1
        have hfirst := hfrontier first List.mem_cons_self hkind
        apply ih
        · intro reference hmem hk
          rcases List.mem_append.1 hmem with htarget | htail
          · obtain ⟨component, hc, href⟩ := mem_targetReferences.1 htarget
            exact .step hfirst hc href hk
          · exact hrest reference htail hk
        · intro reference hmem
          rcases List.mem_cons.1 hmem with rfl | hold
          · exact hfirst
          · exact hreached reference hold

/-- How many references the components that were not reached yet hold. -/
def pending (doc : Document) (components reached : List Reference) : Nat :=
  ((components.filter fun reference => !reached.contains reference).flatMap
    doc.targetReferences).length

theorem pending_cons_le (components reached : List Reference) (reference : Reference) :
    doc.pending components (reference :: reached) ≤ doc.pending components reached := by
  induction components with
  | nil => exact Nat.le_refl _
  | cons first rest ih =>
    unfold pending at ih ⊢
    by_cases hold : first ∈ reached
    · simpa [hold] using ih
    · by_cases hfirst : first = reference
      · subst hfirst
        simp [hold] at ih ⊢
        omega
      · simp [hold, hfirst] at ih ⊢
        omega

/-- Reaching a component takes its references off those that are pending. -/
theorem pending_cons_add_le (doc : Document) {components reached : List Reference}
    {reference : Reference} (hmem : reference ∈ components)
    (hnew : reference ∉ reached) :
    (doc.targetReferences reference).length + doc.pending components (reference :: reached) ≤
      doc.pending components reached := by
  induction components with
  | nil => simp at hmem
  | cons first rest ih =>
    by_cases hfirst : first = reference
    · subst hfirst
      have hrest := doc.pending_cons_le rest reached first
      unfold pending at hrest ⊢
      simp [hnew] at hrest ⊢
      omega
    · have htail : reference ∈ rest := (List.mem_cons.1 hmem).resolve_left (Ne.symm hfirst)
      have hstep := ih htail
      unfold pending at hstep ⊢
      by_cases hold : first ∈ reached
      · simpa [hold] using hstep
      · simp [hold, hfirst] at hstep ⊢
        omega

/-- What is left to look at does not grow when a reference is followed for the first time. -/
theorem length_add_pending_le (doc : Document) {reached : List Reference} {reference : Reference}
    (rest : List Reference) (hkind : reference.kind ∈ kinds) (hnew : reference ∉ reached) :
    (doc.targetReferences reference ++ rest).length +
        doc.pending (doc.componentsOf kinds) (reference :: reached) ≤
      rest.length + doc.pending (doc.componentsOf kinds) reached := by
  rw [List.length_append]
  cases htarget : doc.target? reference with
  | none =>
    have hempty : doc.targetReferences reference = [] := by simp [targetReferences, htarget]
    have hpending := doc.pending_cons_le (doc.componentsOf kinds) reached reference
    rw [hempty, List.length_nil]
    omega
  | some component =>
    have hmem : reference ∈ doc.componentsOf kinds :=
      mem_componentsOf.2 ⟨hkind, by rw [htarget]; rfl⟩
    have hpending := pending_cons_add_le doc hmem hnew
    omega

/-- With fuel for all that is pending, whatever is found has its own references found as well. -/
theorem follow_complete {fuel : Nat} {frontier reached : List Reference}
    (hfuel : frontier.length + doc.pending (doc.componentsOf kinds) reached ≤ fuel)
    (htargets : ∀ source ∈ reached, ∀ reference ∈ doc.targetReferences source,
      reference.kind ∈ kinds → reference ∈ reached ∨ reference ∈ frontier) :
    (∀ reference ∈ frontier, reference.kind ∈ kinds →
        reference ∈ follow doc kinds fuel frontier reached) ∧
      (∀ reference ∈ reached, reference ∈ follow doc kinds fuel frontier reached) ∧
      ∀ source ∈ follow doc kinds fuel frontier reached,
        ∀ reference ∈ doc.targetReferences source, reference.kind ∈ kinds →
          reference ∈ follow doc kinds fuel frontier reached := by
  induction fuel generalizing frontier reached with
  | zero =>
    have hnil : frontier = [] := List.length_eq_zero_iff.1 (by omega)
    subst hnil
    refine ⟨by simp, fun _ hmem => hmem, fun source hsource reference href hkind => ?_⟩
    exact (htargets source hsource reference href hkind).resolve_right (by simp)
  | succ fuel ih =>
    cases frontier with
    | nil =>
      refine ⟨by simp, fun _ hmem => hmem, fun source hsource reference href hkind => ?_⟩
      exact (htargets source hsource reference href hkind).resolve_right (by simp)
    | cons first rest =>
      rw [List.length_cons] at hfuel
      rw [follow]
      split
      next hskip =>
        -- `first` is of no given kind or reached before
        have hfirst : first.kind ∈ kinds → first ∈ reached := by
          intro hkind
          simpa [hkind] using hskip
        have hrest : rest.length + doc.pending (doc.componentsOf kinds) reached ≤ fuel := by omega
        obtain ⟨hfrontier, hreached, hclosed⟩ := ih hrest (by
          intro source hsource reference href hkind
          rcases htargets source hsource reference href hkind with hold | hmem
          · exact .inl hold
          · rcases List.mem_cons.1 hmem with rfl | hmem
            · exact .inl (hfirst hkind)
            · exact .inr hmem)
        refine ⟨fun reference hmem hkind => ?_, hreached, hclosed⟩
        rcases List.mem_cons.1 hmem with rfl | hmem
        · exact hreached _ (hfirst hkind)
        · exact hfrontier reference hmem hkind
      next hfollow =>
        obtain ⟨hkind, hnew⟩ : first.kind ∈ kinds ∧ first ∉ reached := by simpa using hfollow
        have hleft := doc.length_add_pending_le rest hkind hnew
        obtain ⟨hfrontier, hreached, hclosed⟩ := ih (Nat.le_trans hleft (by omega)) (by
          intro source hsource reference href hk
          rcases List.mem_cons.1 hsource with rfl | hsource
          · exact .inr (List.mem_append_left _ href)
          · rcases htargets source hsource reference href hk with hold | hmem
            · exact .inl (List.mem_cons_of_mem _ hold)
            · rcases List.mem_cons.1 hmem with rfl | hmem
              · exact .inl List.mem_cons_self
              · exact .inr (List.mem_append_right _ hmem))
        refine ⟨fun reference hmem hk => ?_, fun reference hmem => ?_, hclosed⟩
        · rcases List.mem_cons.1 hmem with rfl | hmem
          · exact hreached _ List.mem_cons_self
          · exact hfrontier reference (List.mem_append_right _ hmem) hk
        · exact hreached reference (List.mem_cons_of_mem _ hmem)

/-- Fuel beyond what is pending is not used. -/
theorem follow_add {fuel : Nat} {frontier reached : List Reference}
    (hfuel : frontier.length + doc.pending (doc.componentsOf kinds) reached ≤ fuel)
    (more : Nat) :
    follow doc kinds (fuel + more) frontier reached =
      follow doc kinds fuel frontier reached := by
  induction fuel generalizing frontier reached with
  | zero =>
    have hnil : frontier = [] := List.length_eq_zero_iff.1 (by omega)
    subst hnil
    cases more <;> simp [follow]
  | succ fuel ih =>
    cases frontier with
    | nil => simp [follow]
    | cons first rest =>
      rw [List.length_cons] at hfuel
      rw [Nat.succ_add_eq_add_succ, Nat.add_succ, follow, follow]
      split
      next => exact ih (by omega)
      next hfollow =>
        obtain ⟨hkind, hnew⟩ : first.kind ∈ kinds ∧ first ∉ reached := by simpa using hfollow
        have hleft := doc.length_add_pending_le rest hkind hnew
        exact ih (by omega)

theorem length_rootReferences_add_pending (doc : Document) (kinds : List ComponentKind) :
    (doc.rootReferences kinds).length + doc.pending (doc.componentsOf kinds) [] =
      doc.referenceCount kinds := by
  have hall : (doc.componentsOf kinds).filter (fun reference => !([] : List Reference).contains
      reference) = doc.componentsOf kinds := List.filter_eq_self.2 (by simp)
  rw [pending, hall, referenceCount]

/-- The search stops because nothing is left to follow, not because its fuel is used up. -/
theorem follow_eq_reachable (doc : Document) (kinds : List ComponentKind) (more : Nat) :
    follow doc kinds (doc.referenceCount kinds + more) (doc.rootReferences kinds) [] =
      doc.reachable kinds :=
  follow_add (Nat.le_of_eq (length_rootReferences_add_pending doc kinds)) more

theorem closed_reachable (doc : Document) (kinds : List ComponentKind) :
    Closed doc kinds (doc.reachable kinds) := by
  obtain ⟨hfrontier, -, hclosed⟩ := follow_complete
    (Nat.le_of_eq (length_rootReferences_add_pending doc kinds)) (by simp)
  exact ⟨hfrontier, hclosed⟩

/-- The search finds the live references and no others. -/
theorem mem_reachable_iff {reference : Reference} :
    reference ∈ doc.reachable kinds ↔ Live doc kinds reference := by
  constructor
  · intro h
    refine follow_sound ?_ ?_ reference h
    · exact fun reference hmem hkind => live_of_mem_rootReferences hmem hkind
    · simp
  · exact fun h => (closed_reachable doc kinds).mem_of_live h

/-- Documents have the same components in use if their roots refer to the same ones, and so does
each component that is in use in one of them. -/
theorem live_iff_of_agree {other : Document}
    (hroots : ∀ reference,
      reference ∈ other.rootReferences kinds ↔ reference ∈ doc.rootReferences kinds)
    (htargets : ∀ source, Live doc kinds source → ∀ reference,
      reference ∈ other.targetReferences source ↔ reference ∈ doc.targetReferences source)
    {reference : Reference} : Live other kinds reference ↔ Live doc kinds reference := by
  -- both sets are closed in both documents, so each holds what is live in either
  have hold : ∀ found, Live other kinds found → Live doc kinds found := by
    obtain ⟨hin, hstep⟩ := doc.closed_reachable kinds
    have hclosed : Closed other kinds (doc.reachable kinds) := by
      constructor
      · exact fun found hfound => hin found ((hroots found).1 hfound)
      · intro source hsource found hfound
        exact hstep source hsource found
          ((htargets source (mem_reachable_iff.1 hsource) found).1 hfound)
    exact fun _ hlive => mem_reachable_iff.1 (hclosed.mem_of_live hlive)
  refine ⟨hold reference, fun hlive => ?_⟩
  obtain ⟨hin, hstep⟩ := other.closed_reachable kinds
  have hclosed : Closed doc kinds (other.reachable kinds) := by
    constructor
    · exact fun found hfound => hin found ((hroots found).2 hfound)
    · intro source hsource found hfound
      exact hstep source hsource found
        ((htargets source (hold source (mem_reachable_iff.1 hsource)) found).2 hfound)
  exact mem_reachable_iff.1 (hclosed.mem_of_live hlive)

instance (doc : Document) (kinds : List ComponentKind) (reference : Reference) :
    Decidable (Live doc kinds reference) :=
  decidable_of_iff (reference ∈ doc.reachable kinds) mem_reachable_iff

end ApiTidy.Document
