import ApiTidy.Proofs.Address.Errors
import ApiTidy.Proofs.View

/-!
Addresses and their texts. Every text is that of the address it is read as. An address is read from its
text unless a segment has a dot in it, or its only segment is empty: the empty text is that of the root.
No text is read as such an address, but the parent of one that was read can be one.
-/
namespace ApiTidy.Address
variable {address parent : Address} {segment : String}

/-- No segment has a dot in it. -/
def Dotless (address : Address) : Prop := ∀ segment ∈ address.segments, '.' ∉ segment.toList

theorem dotless_parse (text : String) : (parse text).Dotless := by
  intro segment hsegment
  by_cases htext : text = ""
  · rw [segments_parse_eq_nil.2 htext] at hsegment
    simp at hsegment
  · rw [segments_parse htext] at hsegment
    obtain ⟨piece, hpiece, rfl⟩ := List.mem_map.1 hsegment
    rw [String.toList_ofList]
    exact Text.notMem_of_mem_pieces hpiece

theorem dotless_child :
    (address.child segment).Dotless ↔ address.Dotless ∧ '.' ∉ segment.toList := by
  simp [Dotless, child, or_imp, forall_and]

/-- The empty text has one piece, which is empty, but it is read as no segments. -/
theorem parse_text (hdots : address.Dotless) (hsingle : address.segments ≠ [""]) :
    parse address.text = address := by
  by_cases hroot : address.segments = []
  · cases address
    subst hroot
    rfl
  · have hparts : ∀ part ∈ address.segments.map String.toList, '.' ∉ part := by
      simpa [Dotless] using hdots
    have hpieces : Text.pieces '.' address.text.toList = address.segments.map String.toList := by
      rw [Address.text, String.toList_ofList]
      exact Text.pieces_join hparts (by simpa using hroot)
    have htext : address.text ≠ "" := by
      -- the one piece of the empty text would be the only segment
      intro hempty
      rw [hempty] at hpieces
      have hsegments := congrArg (List.map String.ofList) hpieces
      exact hsingle (by simpa [Text.pieces, Function.comp_def] using hsegments.symm)
    have hsegments : (parse address.text).segments = address.segments := by
      rw [segments_parse htext, hpieces]
      simp [Function.comp_def]
    exact congrArg Address.mk hsegments

theorem parse_text_iff :
    parse address.text = address ↔ address.Dotless ∧ address.segments ≠ [""] := by
  constructor
  · intro h
    have hdots := dotless_parse address.text
    rw [h] at hdots
    refine ⟨hdots, fun hsingle => ?_⟩
    have htext : address.text = "" := by simp [Address.text, hsingle, Text.join]
    rw [htext] at h
    have hnil : address.segments = [] := h ▸ segments_parse_eq_nil.2 rfl
    simp [hsingle] at hnil
  · rintro ⟨hdots, hsingle⟩
    exact parse_text hdots hsingle

theorem segments_child_ne : (address.child segment).segments ≠ [""] ↔
    (address = root → segment ≠ "") := by
  cases address
  simp [child, root, List.append_eq_singleton_iff]

theorem dotless_of_splitLast? {last : String} (h : address.splitLast? = some (parent, last))
    (hdots : address.Dotless) : parent.Dotless := by
  have hchild : address = parent.child last := congrArg Address.mk (splitLast?_eq_some.1 h)
  rw [hchild] at hdots
  exact (dotless_child.1 hdots).1

/-- Every text is that of the address read from it, and an address is read from its text if and only
if no segment has a dot in it and it is not that of a single empty segment. So a child is read back
unless there is a dot in a segment of the parent or in its own, or it is the empty segment below the
root; and the parent of an address that was read is read back unless it is that of a single empty
segment. -/
theorem texts_read_back :
    (∀ text : String, (parse text).text = text) ∧
    (∀ address : Address,
      parse address.text = address ↔ address.Dotless ∧ address.segments ≠ [""]) ∧
    (∀ (address : Address) (segment : String),
      parse (address.child segment).text = address.child segment ↔
        address.Dotless ∧ '.' ∉ segment.toList ∧ (address = root → segment ≠ "")) ∧
    ∀ (text : String) (parent : Address) (last : String),
      (parse text).splitLast? = some (parent, last) →
        (parse parent.text = parent ↔ parent.segments ≠ [""]) := by
  refine ⟨text_parse, fun _ => parse_text_iff, fun address segment => ?_,
    fun text parent last h => ?_⟩
  · rw [parse_text_iff, dotless_child, segments_child_ne, and_assoc]
  · have hdots := dotless_of_splitLast? h (dotless_parse text)
    rw [parse_text_iff, and_iff_right hdots]

/-- Two segments, and the first of them is empty: as the parent it is read as the root. -/
theorem texts_read_back_blank :
    (parse ".a").text = ".a" ∧ (parse ".a").splitLast? = some (⟨[""]⟩, "a") ∧
      parse (Address.mk [""]).text ≠ ⟨[""]⟩ ∧
      parse ((Address.mk [""]).child "a").text = (Address.mk [""]).child "a" := by
  obtain ⟨htext, -, hchild, hparent⟩ := texts_read_back
  have hsplit : (parse ".a").splitLast? = some (⟨[""]⟩, "a") := by decide
  have hlost := hparent ".a" ⟨[""]⟩ "a" hsplit
  refine ⟨htext ".a", hsplit, fun hback => hlost.1 hback rfl, (hchild _ _).2 ?_⟩
  exact ⟨by simp [Dotless], by decide, by simp [root]⟩

end ApiTidy.Address
