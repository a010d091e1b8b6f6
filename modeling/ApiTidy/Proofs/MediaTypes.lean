import Mathlib.Data.List.TakeWhile
import ApiTidy.MediaTypes
import ApiTidy.Proofs.Bodies

/-! After a simplification no media type of a body has parameters. -/
namespace ApiTidy.MediaTypes

theorem mem_of_mem_trim {c : Char} {text : List Char} (h : c ∈ Text.trim text) : c ∈ text := by
  unfold Text.trim Text.dropEnd Text.trimStart at h
  have hstart := (List.dropWhile_sublist _).subset (List.mem_reverse.1 h)
  exact (List.dropWhile_sublist _).subset (List.mem_reverse.1 hstart)

theorem hasTypeParameters_plainType (key : String) : hasTypeParameters (plainType key) = false := by
  unfold hasTypeParameters plainType
  rw [String.toList_ofList, List.contains_eq_mem, decide_eq_false_iff_not]
  intro h
  have hbefore := List.mem_takeWhile_imp (mem_of_mem_trim h)
  simp at hbefore

/-- Giving the first key with parameters its plain form leaves the later ones. -/
theorem filter_keys_simplifyEntry {content : Entries Node} {key : String} {rest : List String}
    (h : (Entries.keys content).filter hasTypeParameters = key :: rest) :
    (Entries.keys (simplifyEntry content key)).filter hasTypeParameters = rest := by
  have hmem : key ∈ Entries.keys content := (List.mem_filter.1 (h ▸ List.mem_cons_self)).1
  have hvalue := Entries.get?_isSome_iff.2 hmem
  have hposition := (Entries.position?_isSome content key).trans hvalue
  obtain ⟨media, hmedia⟩ := Option.isSome_iff_exists.1 hvalue
  obtain ⟨index, hindex⟩ := Option.isSome_iff_exists.1 hposition
  have hothers := Entries.filter_keys_erase h
  simp only [simplifyEntry, hmedia, hindex]
  split
  next existing hexisting =>
    have hplain := Entries.get?_isSome_iff.1 (Option.isSome_of_eq_some hexisting)
    rw [Entries.keys_insert_of_mem hplain, hothers]
  next =>
    rw [Entries.filter_keys_insertAt (hasTypeParameters_plainType key), hothers]

theorem filter_keys_foldl_simplifyEntry {keys : List String} {content : Entries Node}
    (h : (Entries.keys content).filter hasTypeParameters = keys) :
    (Entries.keys (keys.foldl simplifyEntry content)).filter hasTypeParameters = [] := by
  induction keys generalizing content with
  | nil => exact h
  | cons key rest ih => exact ih (filter_keys_simplifyEntry h)

/-- No media type of a content mapping has parameters. -/
def PlainContent (content : Entries Node) : Prop :=
  ∀ key ∈ Entries.keys content, hasTypeParameters key = false

theorem plainContent_simplifyContent (content : Entries Node) :
    PlainContent (simplifyContent content).1 := by
  intro key hmem
  have hnone : (Entries.keys (simplifyContent content).1).filter hasTypeParameters = [] :=
    filter_keys_foldl_simplifyEntry rfl
  simpa using List.filter_eq_nil_iff.1 hnone key hmem

theorem simplifyContent_eq_self {content : Entries Node} (h : PlainContent content) :
    simplifyContent content = (content, 0) := by
  have hnone : (Entries.keys content).filter hasTypeParameters = [] :=
    List.filter_eq_nil_iff.2 fun key hmem => by simp [h key hmem]
  simp [simplifyContent, hnone]

/-- No media type of a body has parameters. -/
def Plain (body : Node) : Prop :=
  ∀ content, body.field? "content" = some (.mapping content) → PlainContent content

/-- No media type of a document has parameters. -/
def AllPlain (doc : Document) : Prop := ∀ body ∈ Bodies.all doc, Plain body.2

theorem allPlain_simplify (doc : Document) : AllPlain ⟨(simplify doc.root).1⟩ := by
  intro body hmem content hcontent
  rw [simplify, Bodies.all_onAll] at hmem
  obtain ⟨old, -, rfl⟩ := List.mem_map.1 hmem
  rw [Bodies.changed, Change.atField_fst, Node.field?_modifyField_self] at hcontent
  obtain ⟨before, -, hafter⟩ := Option.map_eq_some_iff.1 hcontent
  rw [Change.inMapping_fst] at hafter
  cases before with
  | scalar value => simp at hafter
  | sequence items => simp at hafter
  | mapping entries => exact Node.mapping.inj hafter ▸ plainContent_simplifyContent entries

/-- There is nothing to do in a document that is plain already. -/
theorem still_simplify {doc : Document} (h : AllPlain doc) : Change.Still simplify doc.root := by
  apply Bodies.still_onAll
  intro body hbody
  apply Change.still_atField
  intro content hcontent
  apply Change.still_inMapping
  intro entries hentries
  subst hentries
  exact simplifyContent_eq_self (h body hbody entries hcontent)

theorem settles_simplify : Change.Settles simplify :=
  fun root => still_simplify (allPlain_simplify ⟨root⟩)

theorem honest_simplify : Change.Honest simplify := by
  have hcontent : Change.Honest simplifyContent := by
    intro content hcount
    have hnone : (Entries.keys content).filter hasTypeParameters = [] :=
      List.length_eq_zero_iff.1 hcount
    simp only [simplifyContent, hnone, List.foldl_nil]
  exact Bodies.honest_onAll _ fun _ => hcontent.inMapping.atField _

end ApiTidy.MediaTypes
