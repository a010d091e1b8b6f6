import Mathlib.Data.String.Basic
import ApiTidy.Yaml.Printer

/-!
Where a text takes a position. Along a line the column counts characters and the octets are added
up; a break starts the next line.
-/
namespace ApiTidy.Yaml

/-- A text that is all on one line. -/
def OneLine (text : List Char) : Prop := ∀ c ∈ text, isBreak c = false

theorem OneLine.append {first second : List Char} (hfirst : OneLine first)
    (hsecond : OneLine second) : OneLine (first ++ second) :=
  List.forall_mem_append.2 ⟨hfirst, hsecond⟩

/-- Characters that take an octet each and stay on the line. -/
def Narrow (text : List Char) : Prop := ∀ c ∈ text, isBreak c = false ∧ c.utf8Size = 1

instance (text : List Char) : Decidable (Narrow text) := List.decidableBAll _ text

theorem utf8Len_narrow {text : List Char} (h : Narrow text) : String.utf8Len text = text.length := by
  induction text with
  | nil => rfl
  | cons c rest ih =>
    obtain ⟨⟨-, hsize⟩, hrest⟩ := List.forall_mem_cons.1 h
    rw [String.utf8Len_cons, ih hrest, hsize, List.length_cons]

namespace Position
variable {p : Position}

/-- Where a text takes a position. -/
def after (p : Position) (text : List Char) : Position := text.foldl past p

@[simp] theorem after_nil (p : Position) : p.after [] = p := rfl

@[simp] theorem after_cons (p : Position) (c : Char) (text : List Char) :
    p.after (c :: text) = (p.past c).after text := rfl

@[simp] theorem after_append (p : Position) (first second : List Char) :
    p.after (first ++ second) = (p.after first).after second := by
  simp [after]

theorem past_of_break {c : Char} (h : isBreak c = true) (p : Position) :
    p.past c = ⟨p.line + 1, 0, 0⟩ := if_pos h

theorem past_of_not_break {c : Char} (h : isBreak c = false) (p : Position) :
    p.past c = ⟨p.line, p.column + 1, p.octet + c.utf8Size⟩ := by
  rw [past, h, if_neg Bool.false_ne_true]

/-- On one line every character takes a column. -/
theorem after_oneLine {text : List Char} (h : OneLine text) (p : Position) :
    p.after text = ⟨p.line, p.column + text.length, p.octet + String.utf8Len text⟩ := by
  induction text generalizing p with
  | nil => rfl
  | cons c rest ih =>
    obtain ⟨hc, hrest⟩ := List.forall_mem_cons.1 h
    rw [after_cons, past_of_not_break hc, ih hrest]
    simp only [List.length_cons, String.utf8Len_cons, Position.mk.injEq, true_and]
    omega

theorem after_narrow {text : List Char} (h : Narrow text) (p : Position) :
    p.after text = p.right text.length := by
  rw [after_oneLine (fun c hc => (h c hc).1), utf8Len_narrow h]
  rfl

theorem after_spaces (count : Nat) (p : Position) : p.after (spaces count) = p.right count := by
  have hnarrow : Narrow (spaces count) := by
    intro c hc
    rw [List.eq_of_mem_replicate hc]
    decide
  rw [after_narrow hnarrow, spaces, List.length_replicate]

theorem line_le_past (c : Char) (p : Position) : p.line ≤ (p.past c).line := by
  unfold past
  split
  · exact Nat.le_succ p.line
  · exact Nat.le_refl p.line

theorem line_le_after (text : List Char) (p : Position) : p.line ≤ (p.after text).line := by
  induction text generalizing p with
  | nil => exact Nat.le_refl p.line
  | cons c rest ih => exact Nat.le_trans (line_le_past c p) (ih (p.past c))

/-- After a line feed the next line starts. -/
theorem line_lt_after_feed (text : List Char) (p : Position) :
    p.line < (p.after (text ++ ['\n'])).line ∧ (p.after (text ++ ['\n'])).column = 0 := by
  rw [after_append]
  exact ⟨Nat.lt_succ_of_le (line_le_after text p), rfl⟩

end Position

theorem Cursor.forward_append (text rest : List Char) (p : Position) :
    (⟨text ++ rest, p⟩ : Cursor).forward text.length = ⟨rest, p.after text⟩ := by
  simp [Cursor.forward, Position.after]

end ApiTidy.Yaml
