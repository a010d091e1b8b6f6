import Mathlib.Data.List.Basic
import ApiTidy.Text.Replace

/-!
What replacing does at the front of a text: an occurrence of the old text is replaced as a whole, and
a character at which none begins stays. So replacing a single character goes through the text
character by character.
-/
namespace ApiTidy.Text
variable {old new rest : List Char} {c : Char}

@[simp] theorem replace_nil (old new : List Char) : replace old new [] = [] := rfl

theorem replace_cons (h : ¬ old <+: c :: rest) (new : List Char) :
    replace old new (c :: rest) = c :: replace old new rest := by
  have hno : ¬ old.isPrefixOf (c :: rest) = true := fun hold => h (List.isPrefixOf_iff_prefix.1 hold)
  rw [replace, replaceFrom, if_neg hno, replace]

theorem replaceFrom_length_append (old new front rest : List Char) :
    replaceFrom old new front.length (front ++ rest) = replace old new rest := by
  induction front with
  | nil => rfl
  | cons c front ih => rw [List.length_cons, List.cons_append, replaceFrom, ih]

theorem replace_append (h : old ≠ []) (new rest : List Char) :
    replace old new (old ++ rest) = new ++ replace old new rest := by
  obtain ⟨c, others, rfl⟩ := List.exists_cons_of_ne_nil h
  have hold : (c :: others).isPrefixOf (c :: (others ++ rest)) = true :=
    List.isPrefixOf_iff_prefix.2 (List.prefix_append (c :: others) rest)
  rw [List.cons_append, replace, replaceFrom, if_pos hold, List.length_cons, Nat.add_sub_cancel,
    replaceFrom_length_append]

/-- A character is replaced wherever it stands. -/
theorem replace_singleton (a : Char) (new text : List Char) :
    replace [a] new text = text.flatMap fun c => if c = a then new else [c] := by
  induction text with
  | nil => rfl
  | cons c rest ih =>
    rw [List.flatMap_cons, ← ih]
    split
    next hc =>
      subst hc
      exact replace_append (List.cons_ne_nil c []) new rest
    next hc =>
      have hno : ¬ [a] <+: c :: rest := fun hold => hc (List.cons_prefix_cons.1 hold).1.symm
      exact replace_cons hno new

/-- A character that is replaced is gone, if the new text is without it. -/
theorem notMem_replace_singleton {a : Char} (h : a ∉ new) (text : List Char) :
    a ∉ replace [a] new text := by
  rw [replace_singleton, List.mem_flatMap]
  rintro ⟨c, -, hmem⟩
  split at hmem
  next => exact h hmem
  next hc => exact hc (List.mem_singleton.1 hmem).symm

/-- Nothing disappears if nothing is replaced by the empty text. -/
theorem replace_ne_nil (hnew : new ≠ []) {text : List Char} (h : text ≠ []) :
    replace old new text ≠ [] := by
  obtain ⟨c, rest, rfl⟩ := List.exists_cons_of_ne_nil h
  rw [replace, replaceFrom]
  split <;> simp [hnew]

end ApiTidy.Text
