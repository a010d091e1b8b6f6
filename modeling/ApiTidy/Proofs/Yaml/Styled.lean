import ApiTidy.Proofs.Yaml.Position
import ApiTidy.Proofs.Yaml.Style

/-!
What is written of a text in its style: only characters that can be shown, on one line if the text is
on one, and not much longer than the text.
-/
namespace ApiTidy.Yaml

/-- Hexadecimal digits are shown on the line, in an octet each. -/
theorem of_mem_hexadecimal {width n : Nat} {d : Char} (h : d ∈ hexadecimal width n) :
    isPrintable d = true ∧ isBreak d = false ∧ d.utf8Size = 1 := by
  induction width generalizing n with
  | zero => cases h
  | succ width ih =>
    rcases List.mem_append.1 h with h | h
    · exact ih h
    · have hdigits : ∀ k : Fin 16, isPrintable (Nat.digitChar k).toUpper = true ∧
          isBreak (Nat.digitChar k).toUpper = false ∧ (Nat.digitChar k).toUpper.utf8Size = 1 := by
        decide
      rw [List.mem_singleton.1 h]
      exact hdigits ⟨n % 16, Nat.mod_lt n (by omega)⟩

theorem length_hexadecimal (width n : Nat) : (hexadecimal width n).length = width := by
  induction width generalizing n with
  | zero => rfl
  | succ width ih => rw [hexadecimal, List.length_append, ih]; rfl

/-- A character stands for itself between double quotes, or it is written in at most six narrow
ones. -/
theorem escape_cases (c : Char) :
    (escape c = [c] ∧ isPrintable c = true ∧ isBreak c = false) ∨
      (∀ d ∈ escape c, isPrintable d = true ∧ isBreak d = false ∧ d.utf8Size = 1) ∧
        (escape c).length ≤ 6 := by
  have hletters : ∀ {a b : Char}, isPrintable a = true ∧ isBreak a = false ∧ a.utf8Size = 1 →
      isPrintable b = true ∧ isBreak b = false ∧ b.utf8Size = 1 →
      (∀ d ∈ [a, b], isPrintable d = true ∧ isBreak d = false ∧ d.utf8Size = 1) ∧
        [a, b].length ≤ 6 :=
    fun ha hb => ⟨List.forall_mem_cons.2 ⟨ha, List.forall_mem_singleton.2 hb⟩, by simp⟩
  unfold escape
  split
  next hspecial =>
    simp only [Bool.or_eq_true, decide_eq_true_eq] at hspecial
    rcases hspecial with rfl | rfl
    · exact .inr (hletters (by decide) (by decide))
    · exact .inr (hletters (by decide) (by decide))
  next =>
    split
    next hshown =>
      obtain ⟨hprintable, hbreak⟩ := Bool.and_eq_true_iff.1 hshown
      exact .inl ⟨rfl, hprintable, by simpa using hbreak⟩
    next =>
      right
      split
      case h_13 =>
        split
        all_goals
          refine ⟨List.forall_mem_cons.2 ⟨by decide, List.forall_mem_cons.2 ⟨by decide,
            fun d hd => of_mem_hexadecimal hd⟩⟩, ?_⟩
          simp [length_hexadecimal]
      all_goals exact hletters (by decide) (by decide)

theorem of_mem_escape {c d : Char} (h : d ∈ escape c) :
    isPrintable d = true ∧ isBreak d = false := by
  rcases escape_cases c with ⟨hself, hshown⟩ | ⟨hnarrow, -⟩
  · rw [hself] at h
    exact List.mem_singleton.1 h ▸ hshown
  · exact ⟨(hnarrow d h).1, (hnarrow d h).2.1⟩

/-- Between single quotes stand the text, quotes and the indentation of its lines. -/
theorem mem_singleQuotedBody {indent : Nat} {atLine : Bool} {text : List Char} {d : Char}
    (h : d ∈ singleQuotedBody indent atLine text) : d ∈ text ∨ d = ' ' ∨ d = '\'' := by
  induction text generalizing atLine with
  | nil =>
    rw [singleQuotedBody] at h
    rcases List.mem_append.1 h with h | h
    · split at h
      next => exact .inr (.inl (List.eq_of_mem_replicate h))
      next => cases h
    · exact .inr (.inr (List.mem_singleton.1 h))
  | cons c others ih =>
    rw [singleQuotedBody] at h
    split at h
    next =>
      rcases List.mem_cons.1 h with rfl | h
      · exact .inl List.mem_cons_self
      · exact (ih h).imp_left (List.mem_cons_of_mem c)
    next =>
      rcases List.mem_append.1 h with h | h
      · rcases List.mem_append.1 h with h | h
        · split at h
          next => exact .inr (.inl (List.eq_of_mem_replicate h))
          next => cases h
        · split at h
          next => exact .inr (.inr (by simpa using h))
          next => exact .inl (List.mem_singleton.1 h ▸ List.mem_cons_self)
      · exact (ih h).imp_left (List.mem_cons_of_mem c)

/-- In a block stand the text, breaks and the indentation of its lines. -/
theorem mem_literalBody {indent : Nat} {atLine : Bool} {text : List Char} {d : Char}
    (h : d ∈ literalBody indent atLine text) : d ∈ text ∨ d = ' ' ∨ d = '\n' := by
  induction text generalizing atLine with
  | nil =>
    rw [literalBody] at h
    split at h
    next => cases h
    next => exact .inr (.inr (List.mem_singleton.1 h))
  | cons c others ih =>
    rw [literalBody] at h
    split at h
    next =>
      rcases List.mem_cons.1 h with rfl | h
      · exact .inl List.mem_cons_self
      · exact (ih h).imp_left (List.mem_cons_of_mem c)
    next =>
      rcases List.mem_append.1 h with h | h
      · split at h
        next => exact .inr (.inl (List.eq_of_mem_replicate h))
        next => cases h
      · rcases List.mem_cons.1 h with rfl | h
        · exact .inl List.mem_cons_self
        · exact (ih h).imp_left (List.mem_cons_of_mem c)

theorem mem_literalHeader {text : List Char} {d : Char} (h : d ∈ literalHeader text) :
    d ∈ ['|', '2', '-', '+'] := by
  unfold literalHeader at h
  rcases List.mem_append.1 h with h | h
  · rcases List.mem_cons.1 h with rfl | h
    · simp
    · split at h
      next => simp [List.mem_singleton.1 h]
      next => cases h
  · have hchomping : d = '-' ∨ d = '+' := by
      split at h
      · exact .inl (List.mem_singleton.1 h)
      · split at h <;> simp_all
      · split at h
        · exact .inl (List.mem_singleton.1 h)
        · split at h <;> simp_all
    rcases hchomping with rfl | rfl <;> simp

/-- Whatever the text is, in its style it is shown. -/
theorem isPrintable_of_mem_styled {indent : Nat} {text : List Char} {style : ScalarStyle}
    (hstyle : style.Holds text) : ∀ d ∈ styled indent text style, isPrintable d = true := by
  intro d hd
  cases style with
  | plain => exact ((fitsPlain_iff.1 hstyle.1).1 d hd).1
  | singleQuoted =>
    have hshown : ∀ c ∈ text, isPrintable c = true := by
      have hfits := hstyle.1
      simp only [fitsSingleQuotes, isShowable, Bool.and_eq_true, List.all_eq_true] at hfits
      exact hfits.1.1
    rcases List.mem_cons.1 hd with rfl | hd
    · decide
    rcases mem_singleQuotedBody hd with hd | rfl | rfl
    · exact hshown d hd
    · decide
    · decide
  | doubleQuoted =>
    rcases List.mem_cons.1 hd with rfl | hd
    · decide
    rcases List.mem_append.1 hd with hd | hd
    · obtain ⟨c, -, hc⟩ := List.mem_flatMap.1 hd
      exact (of_mem_escape hc).1
    · exact List.mem_singleton.1 hd ▸ (by decide)
  | literal =>
    have hshown : ∀ c ∈ text, isPrintable c = true := by
      have hfits := hstyle.1
      simp only [fitsBlock, isShowable, Bool.and_eq_true, List.all_eq_true] at hfits
      exact hfits.1.1
    rcases List.mem_append.1 hd with hd | hd
    · have hmarks : ∀ c ∈ ['|', '2', '-', '+'], isPrintable c = true :=
        List.all_eq_true.1 (by decide)
      exact hmarks d (mem_literalHeader hd)
    rcases List.mem_cons.1 hd with rfl | hd
    · decide
    rcases mem_literalBody hd with hd | rfl | rfl
    · exact hshown d hd
    · decide
    · decide
  | folded => cases hstyle

/-- A text without breaks takes up one line in its style. -/
theorem isBreak_of_mem_styled (indent : Nat) {text : List Char} {style : ScalarStyle}
    (hstyle : style.Holds text) (h : ∀ c ∈ text, isBreak c = false) :
    ∀ d ∈ styled indent text style, isBreak d = false := by
  cases style with
  | plain => exact h
  | singleQuoted =>
    refine List.forall_mem_cons.2 ⟨by decide, fun d hd => ?_⟩
    rcases mem_singleQuotedBody hd with hd | rfl | rfl
    · exact h d hd
    · decide
    · decide
  | doubleQuoted =>
    intro d hd
    rcases List.mem_cons.1 hd with rfl | hd
    · decide
    rcases List.mem_append.1 hd with hd | hd
    · obtain ⟨c, -, hc⟩ := List.mem_flatMap.1 hd
      exact (of_mem_escape hc).2
    · exact List.mem_singleton.1 hd ▸ (by decide)
  | literal => exact absurd (h _ hstyle.2) (by decide)
  | folded => cases hstyle

/-- An escape takes at most six times the octets of its character. -/
theorem utf8Len_escape_le (c : Char) : String.utf8Len (escape c) ≤ 6 * c.utf8Size := by
  have hsize := c.utf8Size_pos
  rcases escape_cases c with ⟨hself, -⟩ | ⟨hnarrow, hlength⟩
  · rw [hself]
    simp
    omega
  · have hoctets := utf8Len_narrow fun d hd => (hnarrow d hd).2
    omega

theorem utf8Len_singleQuotedBody_le (indent : Nat) {text : List Char}
    (hline : ∀ c ∈ text, isBreak c = false) :
    String.utf8Len (singleQuotedBody indent false text) ≤ 2 * String.utf8Len text + 1 := by
  induction text with
  | nil =>
    show String.utf8Len ['\''] ≤ 2 * String.utf8Len [] + 1
    decide
  | cons c others ih =>
    obtain ⟨hc, hothers⟩ := List.forall_mem_cons.1 hline
    have hlater := ih hothers
    rw [singleQuotedBody, hc, if_neg Bool.false_ne_true, if_neg Bool.false_ne_true, List.nil_append,
      String.utf8Len_append, String.utf8Len_cons]
    split
    next hquote =>
      have hquotes : String.utf8Len ['\'', '\''] = 2 * c.utf8Size := by
        rw [hquote]
        decide
      omega
    next =>
      have hself : String.utf8Len [c] = c.utf8Size := by simp
      omega

/-- On one line a style takes at most six times the octets of the text and two quotes. -/
theorem utf8Len_styled_le (indent : Nat) {text : List Char} {style : ScalarStyle}
    (hstyle : style.Holds text) (hline : ∀ c ∈ text, isBreak c = false) :
    String.utf8Len (styled indent text style) ≤ 6 * String.utf8Len text + 2 := by
  cases style with
  | plain =>
    show String.utf8Len text ≤ _
    omega
  | singleQuoted =>
    have hbody := utf8Len_singleQuotedBody_le indent hline
    show String.utf8Len ('\'' :: singleQuotedBody indent false text) ≤ _
    have hquote : '\''.utf8Size = 1 := by decide
    rw [String.utf8Len_cons, hquote]
    omega
  | doubleQuoted =>
    have hescaped : String.utf8Len (text.flatMap escape) ≤ 6 * String.utf8Len text := by
      clear hstyle hline
      induction text with
      | nil => decide
      | cons c others ih =>
        have hc := utf8Len_escape_le c
        rw [List.flatMap_cons, String.utf8Len_append, String.utf8Len_cons]
        omega
    have hquote : '"'.utf8Size = 1 := by decide
    show String.utf8Len ('"' :: text.flatMap escape ++ ['"']) ≤ _
    simp only [List.cons_append, String.utf8Len_cons, String.utf8Len_append, String.utf8Len_nil,
      hquote]
    omega
  | literal => exact absurd (hline _ hstyle.2) (by decide)
  | folded => cases hstyle

end ApiTidy.Yaml
