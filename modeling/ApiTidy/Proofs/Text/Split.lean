import Mathlib.Data.List.TakeWhile
import ApiTidy.Text.Split

/-!
The pieces of a text: there is always one, none has a separator in it, and the last is empty after a
separator only. Joined again they are the text, and what is joined is cut into the same pieces if there
was no separator in it.
-/
namespace ApiTidy.Text

/-- Cutting is the library's splitting of a list. -/
theorem pieces_eq_splitOn (sep : Char) (text : List Char) : pieces sep text = text.splitOn sep := by
  induction text with
  | nil => rfl
  | cons c rest ih => simp only [pieces, List.splitOn_cons_eq_if_modifyHead, ih, beq_iff_eq]

theorem pieces_ne_nil (sep : Char) (text : List Char) : pieces sep text ≠ [] := by
  rw [pieces_eq_splitOn]
  exact List.splitOn_ne_nil sep text

theorem notMem_of_mem_pieces {sep : Char} {text part : List Char} (h : part ∈ pieces sep text) :
    sep ∉ part := by
  induction text generalizing part with
  | nil => simp [List.mem_singleton.1 h]
  | cons c rest ih =>
    rw [pieces] at h
    split at h
    next =>
      rcases List.mem_cons.1 h with rfl | hrest
      · exact List.not_mem_nil
      · exact ih hrest
    next hc =>
      obtain ⟨first, others, hpieces⟩ := List.exists_cons_of_ne_nil (pieces_ne_nil sep rest)
      rw [hpieces, List.modifyHead_cons] at h
      rw [hpieces] at ih
      rcases List.mem_cons.1 h with rfl | hrest
      · have hfirst := ih List.mem_cons_self
        simp [Ne.symm hc, hfirst]
      · exact ih (List.mem_cons_of_mem first hrest)

theorem join_cons {parts : List (List Char)} (h : parts ≠ []) (sep : Char) (part : List Char) :
    join sep (part :: parts) = part ++ sep :: join sep parts := by
  obtain ⟨next, rest, rfl⟩ := List.exists_cons_of_ne_nil h
  simp [join, List.intercalate]

theorem join_concat {parts : List (List Char)} (h : parts ≠ []) (sep : Char) (last : List Char) :
    join sep (parts ++ [last]) = join sep parts ++ sep :: last := by
  induction parts with
  | nil => exact absurd rfl h
  | cons part rest ih =>
    cases rest with
    | nil => simp [join, List.intercalate]
    | cons next others =>
      have hrest : next :: others ≠ [] := List.cons_ne_nil next others
      rw [List.cons_append, join_cons (by simp), ih hrest, join_cons hrest]
      simp

theorem join_pieces (sep : Char) (text : List Char) : join sep (pieces sep text) = text := by
  rw [pieces_eq_splitOn]
  exact List.intercalate_splitOn sep

theorem getLast?_of_getLast?_pieces {sep : Char} {text : List Char} (htext : text ≠ [])
    (h : (pieces sep text).getLast? = some []) : text.getLast? = some sep := by
  obtain ⟨front, hpieces⟩ := List.getLast?_eq_some_iff.1 h
  have hjoined := join_pieces sep text
  rw [hpieces] at hjoined
  have hfront : front ≠ [] := by
    rintro rfl
    exact htext hjoined.symm
  rw [← hjoined, join_concat hfront, List.getLast?_concat]

/-- Parts without a separator are the pieces of what they are joined to. -/
theorem pieces_join {sep : Char} {parts : List (List Char)} (h : ∀ part ∈ parts, sep ∉ part)
    (hparts : parts ≠ []) : pieces sep (join sep parts) = parts := by
  rw [pieces_eq_splitOn]
  exact List.splitOn_intercalate sep h hparts

/-- What stands after a separator and holds none is the last piece. -/
theorem pieces_append {sep : Char} {last : List Char} (h : sep ∉ last) (front : List Char) :
    pieces sep (front ++ sep :: last) = pieces sep front ++ [last] := by
  simp only [pieces_eq_splitOn, List.splitOn_append_cons_self, List.splitOn_eq_singleton h]

theorem cutAt_append {sep : Char} {front : List Char} (h : sep ∉ front) (back : List Char) :
    cutAt sep (front ++ sep :: back) = some (front, back) := by
  induction front with
  | nil => simp [cutAt]
  | cons c rest ih =>
    have hc : c ≠ sep := List.ne_of_not_mem_cons h |>.symm
    rw [List.cons_append, cutAt, if_neg hc, ih (List.not_mem_of_not_mem_cons h)]
    rfl

theorem before_of_notMem {sep : Char} {text : List Char} (h : sep ∉ text) :
    before sep text = text := by
  refine List.takeWhile_eq_self_iff.2 fun c hc => decide_eq_true ?_
  rintro rfl
  exact h hc

end ApiTidy.Text
