import ApiTidy.Proofs.Text.Numeral
import ApiTidy.Proofs.Yaml.Styled
import ApiTidy.Yaml.Token.Quoted

/-!
A text in double quotes is read back. Every character is written on the line of the quotes, as
itself or as an escape, so no gap with a break comes up between them.
-/
namespace ApiTidy.Yaml

theorem digit?_toUpper {n : Nat} (h : n < 16) :
    Text.digit? 16 (Nat.digitChar n).toUpper = some n := by
  have hdigits : ∀ k : Fin 16, Text.digit? 16 (Nat.digitChar k).toUpper = some k.val := by decide
  exact hdigits ⟨n, h⟩

theorem numeralFrom?_hexadecimal (width value n : Nat) :
    Text.numeralFrom? 16 value (hexadecimal width n) =
      some (value * 16 ^ width + n % 16 ^ width) := by
  induction width generalizing n with
  | zero => simp [hexadecimal, Text.numeralFrom?, Nat.mod_one]
  | succ width ih =>
    have hdigit := digit?_toUpper (Nat.mod_lt n (by decide : 0 < 16))
    rw [hexadecimal, Text.numeralFrom?_append, ih, Option.bind_some, Text.numeralFrom?, hdigit]
    have hmod : n % 16 ^ (width + 1) = n / 16 % 16 ^ width * 16 + n % 16 := by
      rw [Nat.pow_succ, Nat.mul_comm, Nat.mod_mul]
      omega
    have hpower : value * 16 ^ (width + 1) = value * 16 ^ width * 16 := by
      rw [Nat.pow_succ, Nat.mul_assoc]
    show some ((value * 16 ^ width + n / 16 % 16 ^ width) * 16 + n % 16) = _
    rw [hmod, hpower]
    congr 1
    omega

/-- The digits of a character's number stand for the character. -/
theorem codePoint?_hexadecimal {width : Nat} {c : Char} (hwidth : 0 < width)
    (h : c.toNat < 16 ^ width) : codePoint? (hexadecimal width c.toNat) = some c := by
  have hne : hexadecimal width c.toNat ≠ [] := by
    cases width with
    | zero => cases hwidth
    | succ width => simp [hexadecimal]
  have hnumeral : Text.numeral? 16 (hexadecimal width c.toNat) = some c.toNat := by
    rw [Text.numeral?, numeralFrom?_hexadecimal, Nat.mod_eq_of_lt h]
    · simp
    · exact hne
  have hvalid : c.toNat.isValidChar := c.valid
  have hchar : Char.ofNatAux c.toNat hvalid = c := by
    have hsame := Char.ofNat_toNat c
    rwa [Char.ofNat, dif_pos hvalid] at hsame
  rw [codePoint?, hnumeral]
  show (if h : c.toNat.isValidChar then some (Char.ofNatAux c.toNat h) else none) = some c
  rw [dif_pos hvalid, hchar]

theorem narrow_hexadecimal (width n : Nat) : Narrow (hexadecimal width n) :=
  fun _ h => (of_mem_hexadecimal h).2

/-- Reading goes on after a piece of the text with one character more and no break in the gap. -/
def Reads (c : Char) (piece : List Char) : Prop :=
  ∀ (done : List Char) (gap : Gap) (p : Position), gap.hasBreak = false → p.column ≠ 0 →
    ∃ later next, next.hasBreak = false ∧
      next.reversed ++ later = c :: (gap.reversed ++ done) ∧
      ∀ rest, doubleQuotedFrom done gap p (piece ++ rest) =
        doubleQuotedFrom later next (p.after piece) rest

theorem reads_simple {c letter : Char} (h : simpleEscape? letter = some c)
    (hbreak : isBreak letter = false) (hsize : letter.utf8Size = 1) :
    Reads c ['\\', letter] := by
  intro done gap p _ _
  refine ⟨c :: (gap.reversed ++ done), .none, rfl, rfl, fun rest => ?_⟩
  have hx : letter ≠ 'x' := by rintro rfl; cases h
  have hu : letter ≠ 'u' := by rintro rfl; cases h
  have hU : letter ≠ 'U' := by rintro rfl; cases h
  have hnarrow : Narrow ['\\', letter] :=
    List.forall_mem_cons.2 ⟨by decide, List.forall_mem_singleton.2 ⟨hbreak, hsize⟩⟩
  rw [Position.after_narrow hnarrow]
  rw [List.cons_append, List.singleton_append, doubleQuotedFrom, hbreak, if_neg Bool.false_ne_true,
    h]
  · rfl
  all_goals simp_all

theorem reads_hexadecimal {c : Char} (h : c.toNat < 16 ^ 2) :
    Reads c ('\\' :: 'x' :: hexadecimal 2 c.toNat) := by
  intro done gap p _ _
  refine ⟨c :: (gap.reversed ++ done), .none, rfl, rfl, fun rest => ?_⟩
  have hnarrow : Narrow ('\\' :: 'x' :: hexadecimal 2 c.toNat) :=
    List.forall_mem_cons.2 ⟨by decide, List.forall_mem_cons.2 ⟨by decide, narrow_hexadecimal 2 _⟩⟩
  rw [Position.after_narrow hnarrow]
  have hcode := codePoint?_hexadecimal (by decide) h
  have hlength := length_hexadecimal 2 c.toNat
  match hdigits : hexadecimal 2 c.toNat, hlength with
  | [a, b], _ =>
    rw [hdigits] at hcode
    simp only [List.cons_append, List.nil_append, doubleQuotedFrom, hcode]
    rfl

theorem reads_long_hexadecimal {c : Char} (h : c.toNat < 16 ^ 4) :
    Reads c ('\\' :: 'u' :: hexadecimal 4 c.toNat) := by
  intro done gap p _ _
  refine ⟨c :: (gap.reversed ++ done), .none, rfl, rfl, fun rest => ?_⟩
  have hnarrow : Narrow ('\\' :: 'u' :: hexadecimal 4 c.toNat) :=
    List.forall_mem_cons.2 ⟨by decide, List.forall_mem_cons.2 ⟨by decide, narrow_hexadecimal 4 _⟩⟩
  rw [Position.after_narrow hnarrow]
  have hcode := codePoint?_hexadecimal (by decide) h
  have hlength := length_hexadecimal 4 c.toNat
  match hdigits : hexadecimal 4 c.toNat, hlength with
  | [a, b, d, e], _ =>
    rw [hdigits] at hcode
    simp only [List.cons_append, List.nil_append, doubleQuotedFrom, hcode]
    rfl

/-- A character that stands for itself: a blank widens the gap, another one ends it. -/
theorem reads_self {c : Char} (hquote : c ≠ '"') (hescape : c ≠ '\\') (hbreak : isBreak c = false) :
    Reads c [c] := by
  intro done gap p hgap hcolumn
  have hstep : ∀ rest, doubleQuotedFrom done gap p (c :: rest) =
      if isBlank c then doubleQuotedFrom done (gap.addBlank c) (p.past c) rest
      else doubleQuotedFrom (c :: (gap.reversed ++ done)) .none (p.past c) rest := by
    intro rest
    rw [doubleQuotedFrom, if_neg hquote, if_neg hescape, hbreak]
    · simp [hcolumn]
    all_goals
      intros
      exact hescape (by assumption)
  by_cases hblank : isBlank c = true
  · refine ⟨done, gap.addBlank c, ?_, ?_, fun rest => ?_⟩
    · cases gap with
      | none => rfl
      | blanks cs => rfl
      | lines first more => cases hgap
    · cases gap with
      | none => rfl
      | blanks cs => rfl
      | lines first more => cases hgap
    · rw [List.singleton_append, hstep, if_pos hblank]
      rfl
  · refine ⟨c :: (gap.reversed ++ done), .none, rfl, rfl, fun rest => ?_⟩
    rw [List.singleton_append, hstep, if_neg hblank]
    rfl

/-- A character that needs an escape is on the first plane. -/
theorem toNat_lt_of_not_shown {c : Char} (h : ¬ (isPrintable c && !isBreak c) = true) :
    c.toNat < 16 ^ 4 := by
  by_cases hbreak : isBreak c = true
  · simp only [isBreak, Bool.or_eq_true, decide_eq_true_eq] at hbreak
    rcases hbreak with (((rfl | rfl) | rfl) | rfl) | rfl <;> decide
  · have hprintable : isPrintable c = false := by simpa [hbreak] using h
    simp only [isPrintable, Bool.or_eq_false_iff, decide_eq_false_iff_not] at hprintable
    omega

theorem reads_escape (c : Char) : Reads c (escape c) := by
  unfold escape
  split
  next hspecial =>
    simp only [Bool.or_eq_true, decide_eq_true_eq] at hspecial
    rcases hspecial with rfl | rfl
    · exact reads_simple rfl (by decide) (by decide)
    · exact reads_simple rfl (by decide) (by decide)
  next hspecial =>
    simp only [Bool.or_eq_true, decide_eq_true_eq, not_or] at hspecial
    split
    next hshown =>
      have hbreak : isBreak c = false := by simpa using (Bool.and_eq_true_iff.1 hshown).2
      exact reads_self hspecial.1 hspecial.2 hbreak
    next hshown =>
      split
      case h_13 =>
        split
        next hsmall => exact reads_hexadecimal (by omega)
        next => exact reads_long_hexadecimal (toNat_lt_of_not_shown hshown)
      all_goals exact reads_simple rfl (by decide) (by decide)

theorem oneLine_escape (c : Char) : OneLine (escape c) := fun _ h => (of_mem_escape h).2

/-- The text between double quotes is read back, up to the closing quote. -/
theorem doubleQuotedFrom_escaped (text rest done : List Char) (gap : Gap) (p : Position)
    (hgap : gap.hasBreak = false) (hcolumn : p.column ≠ 0) :
    doubleQuotedFrom done gap p (text.flatMap escape ++ '"' :: rest) =
      .ok ((gap.reversed ++ done).reverse ++ text,
        ⟨rest, p.after (text.flatMap escape ++ ['"'])⟩) := by
  induction text generalizing done gap p with
  | nil =>
    have hmark : isDocumentMark ('"' :: rest) = false := rfl
    rw [List.flatMap_nil, List.nil_append, doubleQuotedFrom, hmark]
    · simp only [Bool.and_false, Bool.false_eq_true, if_false, if_true, List.append_nil]
      rfl
    all_goals simp
  | cons c others ih =>
    obtain ⟨later, next, hnext, hcontent, hread⟩ := reads_escape c done gap p hgap hcolumn
    have hline := Position.after_oneLine (oneLine_escape c) p
    rw [List.flatMap_cons, List.append_assoc, hread, ih, hcontent]
    · simp
    · exact hnext
    · rw [hline]
      show p.column + _ ≠ 0
      omega

/-- A text in double quotes is read back, and what follows the quotes is left. -/
theorem doubleQuoted_styled (indent : Nat) (text rest : List Char) (p : Position) :
    doubleQuoted ⟨styled indent text .doubleQuoted ++ rest, p⟩ =
      .ok (text, ⟨rest, p.after (styled indent text .doubleQuoted)⟩) := by
  have hquote : (p.past '"').column ≠ 0 := by
    rw [Position.past_of_not_break (by decide)]
    exact Nat.succ_ne_zero _
  have hread := doubleQuotedFrom_escaped text rest [] .none (p.past '"') rfl hquote
  have hcursor : (⟨styled indent text .doubleQuoted ++ rest, p⟩ : Cursor).forward 1 =
      ⟨text.flatMap escape ++ '"' :: rest, p.past '"'⟩ := by
    rw [styled, List.append_assoc]
    exact Cursor.forward_append ['"'] _ p
  rw [doubleQuoted, hcursor]
  exact hread

end ApiTidy.Yaml
