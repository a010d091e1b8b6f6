import Mathlib.Tactic.SplitIfs
import ApiTidy.Json.Quoted
import ApiTidy.Proofs.Text.Numeral

/-! A quoted text is read back whole, whatever follows it: reading undoes each escape on its own. -/
namespace ApiTidy.Json

theorem unit?_hex4 {n : Nat} (h : n < 0x10000) :
    unit? (Nat.digitChar (n / 4096 % 16)) (Nat.digitChar (n / 256 % 16))
      (Nat.digitChar (n / 16 % 16)) (Nat.digitChar (n % 16)) = some n := by
  have hdigit : ∀ m : Nat, Text.digit? 16 (Nat.digitChar (m % 16)) = some (m % 16) :=
    fun m => Text.digit?_digitChar (by decide) (Nat.mod_lt m (by decide))
  simp only [unit?, Text.numeral?, Text.numeralFrom?, hdigit, Option.bind_eq_bind,
    Option.bind_some, Option.some.injEq]
  omega

/-- Reading puts this character in front of the text that is read from here on. -/
def Prepends (c : Char) (escaped : List Char) : Prop :=
  ∀ rest, unquote? (escaped ++ rest) = (unquote? rest).map fun (text, left) => (c :: text, left)

theorem prepends_simple {c letter : Char} (h : simpleEscape? letter = some c) :
    Prepends c ['\\', letter] := by
  intro rest
  have hletter : letter ≠ 'u' := by
    rintro rfl
    cases h
  rw [List.cons_append, List.cons_append, List.nil_append, unquote?, h]
  · cases unquote? rest <;> rfl
  · exact fun _ _ _ _ _ hu _ => hletter hu

theorem prepends_hex4 {c : Char} (h : c.toNat < 0x20) :
    Prepends c ('\\' :: 'u' :: hex4 c.toNat) := by
  intro rest
  have hhigh : (0xD800 ≤ c.toNat && c.toNat < 0xDC00) = false := by simp; omega
  have hlow : (0xDC00 ≤ c.toNat && c.toNat < 0xE000) = false := by simp; omega
  simp only [hex4, List.cons_append, List.nil_append]
  rw [unquote?, unit?_hex4 (by omega)]
  simp only [hhigh, hlow, Bool.false_eq_true, if_false, Char.ofNat_toNat]

theorem prepends_self {c : Char} (hquote : c ≠ '"') (hslash : c ≠ '\\') (h : ¬ c.toNat < 0x20) :
    Prepends c [c] := by
  intro rest
  have hplain : (c = '\\' || c.toNat < 0x20) = false := by simp [hslash, Nat.not_lt.1 h]
  rw [List.singleton_append, unquote?, hplain, if_neg Bool.false_ne_true]
  · exact hquote
  · exact fun _ _ _ _ _ hc _ => hslash hc
  · exact fun _ _ hc _ => hslash hc

theorem prepends_escape (c : Char) : Prepends c (escape c) := by
  unfold escape
  split_ifs with hquote hslash hback hfeed hline hreturn htab hcontrol
  · subst hquote
    exact prepends_simple rfl
  · subst hslash
    exact prepends_simple rfl
  · subst hback
    exact prepends_simple rfl
  · subst hfeed
    exact prepends_simple rfl
  · subst hline
    exact prepends_simple rfl
  · subst hreturn
    exact prepends_simple rfl
  · subst htab
    exact prepends_simple rfl
  · exact prepends_hex4 hcontrol
  · exact prepends_self hquote hslash hcontrol

/-- A text in quotation marks is read back, up to the closing mark. -/
theorem unquote?_flatMap_escape (text rest : List Char) :
    unquote? (text.flatMap escape ++ '"' :: rest) = some (text, rest) := by
  induction text with
  | nil => rfl
  | cons c others ih =>
    rw [List.flatMap_cons, List.append_assoc, prepends_escape c, ih]
    rfl

end ApiTidy.Json
