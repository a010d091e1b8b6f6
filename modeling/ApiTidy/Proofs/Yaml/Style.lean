import ApiTidy.Yaml.Printer
import ApiTidy.Yaml.Token.Plain
import ApiTidy.Yaml.Token.Quoted

/-!
Which texts a style is chosen for, and what follows of a text that needs no quotes: which marks of
the format can stand at its start and which inside it.
-/
namespace ApiTidy.Yaml

/-- What a text is that needs no quotes. -/
theorem fitsPlain_iff {text : List Char} :
    fitsPlain text = true ↔ (∀ c ∈ text, isPrintable c = true ∧ isBreak c = false) ∧
      text.head? ≠ some ' ' ∧ text.getLast? ≠ some ' ' ∧ startsWithMark text = false ∧
      hasInnerMark text = false := by
  simp [fitsPlain, isShowable, forall_and, and_assoc]

/-- Which style a text gets, and what it is like then. A plain one is not empty, since that would be
null. -/
theorem ScalarStyle.ofText_cases (text : List Char) :
    ofText text = .plain ∧ fitsPlain text = true ∧ text ≠ [] ∧ needsQuotes text = false ∨
      ofText text = .singleQuoted ∧ fitsSingleQuotes text = true ∧ '\n' ∉ text ∨
      ofText text = .doubleQuoted ∨
      ofText text = .literal ∧ fitsBlock text = true ∧ '\n' ∈ text := by
  have hquoted : quotedStyle text = .singleQuoted ∧ fitsSingleQuotes text = true ∨
      quotedStyle text = .doubleQuoted := by
    unfold quotedStyle
    split
    next h => exact .inl ⟨rfl, h⟩
    next => exact .inr rfl
  unfold ofText
  split
  next hline =>
    split
    next hblock => exact .inr (.inr (.inr ⟨rfl, hblock, by simpa using hline⟩))
    next => exact .inr (.inr (.inl rfl))
  next hline =>
    have hquotes : quotedStyle text = .singleQuoted ∧ fitsSingleQuotes text = true ∧ '\n' ∉ text ∨
        quotedStyle text = .doubleQuoted :=
      hquoted.imp_left fun h => ⟨h.1, h.2, by simpa using hline⟩
    split
    next => exact .inr (hquotes.imp_right .inl)
    next hneeded =>
      split
      next hplain =>
        refine .inl ⟨rfl, hplain, ?_, by simpa using hneeded⟩
        rintro rfl
        exact hneeded (by decide)
      next => exact .inr (hquotes.imp_right .inl)

/-- Whether a style can hold a text. -/
def ScalarStyle.Holds (text : List Char) : ScalarStyle → Prop
  | .plain => fitsPlain text = true ∧ text ≠ []
  | .singleQuoted => fitsSingleQuotes text = true ∧ '\n' ∉ text
  | .doubleQuoted => True
  | .literal => fitsBlock text = true ∧ '\n' ∈ text
  | .folded => False

theorem ScalarStyle.ofText_holds (text : List Char) : (ofText text).Holds text := by
  rcases ofText_cases text with ⟨hstyle, hfits, htext, -⟩ | ⟨hstyle, hfits, hfeed⟩ | hstyle |
    ⟨hstyle, hfits, hfeed⟩
  · exact hstyle ▸ ⟨hfits, htext⟩
  · exact hstyle ▸ ⟨hfits, hfeed⟩
  · exact hstyle ▸ trivial
  · exact hstyle ▸ ⟨hfits, hfeed⟩

/-- A character that can be shown is no break that is taken for a line feed. -/
theorem normalizeBreaks_append {text : List Char} (h : ∀ c ∈ text, isPrintable c = true)
    (rest : List Char) : normalizeBreaks (text ++ rest) = text ++ normalizeBreaks rest := by
  induction text with
  | nil => rfl
  | cons c others ih =>
    obtain ⟨hc, hothers⟩ := List.forall_mem_cons.1 h
    have hreturn : c ≠ '\r' := by
      rintro rfl
      exact absurd hc (by decide)
    have hnext : c ≠ '\x85' := by
      rintro rfl
      exact absurd hc (by decide)
    rw [List.cons_append, normalizeBreaks, ih hothers]
    · simp [hreturn, hnext]
    · exact fun _ hc _ => hreturn hc

theorem endsWord_append {text : List Char} (h : endsWord text = false) (rest : List Char) :
    endsWord (text ++ rest) = false := by
  cases text with
  | nil => cases h
  | cons c others => exact h

/-- A colon inside a word does not end it, whatever follows the word. -/
theorem isValueMark_append {c : Char} {others : List Char} (h : c = ':' → endsWord others = false)
    (rest : List Char) : isValueMark (c :: (others ++ rest)) = false := by
  unfold isValueMark
  split
  next hcons =>
    obtain ⟨hc, rfl⟩ := List.cons.inj hcons
    exact endsWord_append (h hc) rest
  next => rfl

theorem isBlank_of_isPrintable {c : Char} (h : isPrintable c = true) :
    isBlank c = true ↔ c = ' ' := by
  have htab : c ≠ '\t' := by
    rintro rfl
    exact absurd h (by decide)
  simp [isBlank, htab]

/-- A text that needs no quotes starts with neither a blank nor a break. -/
theorem first_of_fitsPlain {c : Char} {others : List Char} (h : fitsPlain (c :: others) = true) :
    isBlank c = false ∧ isBreak c = false := by
  obtain ⟨hshown, hfirst, -⟩ := fitsPlain_iff.1 h
  obtain ⟨hprintable, hbreak⟩ := hshown c List.mem_cons_self
  have hspace : c ≠ ' ' := fun hc => hfirst (by rw [hc]; rfl)
  exact ⟨by simpa [hspace] using isBlank_of_isPrintable hprintable, hbreak⟩

/-- What stands at the start of a text that starts with no mark. -/
theorem of_startsWithMark_eq_false {c : Char} {others : List Char}
    (h : startsWithMark (c :: others) = false) :
    c ∉ "#,[]\x7b\x7d&*!|>'\"%@`".toList ∧
      (c = '?' ∨ c = ':' ∨ c = '-' → endsWord others = false) := by
  unfold startsWithMark at h
  split at h
  next hnil => cases hnil
  next => cases h
  next => cases h
  next hcons =>
    obtain ⟨rfl, rfl⟩ := List.cons.inj hcons
    obtain ⟨hmarks, hwords⟩ := Bool.or_eq_false_iff.1 h
    refine ⟨by simpa using hmarks, fun hc => ?_⟩
    rcases hc with rfl | rfl | rfl <;> simpa using hwords

/-- Three equal characters are not made of a shorter text and another character after it. -/
theorem eq_of_append_cons {text rest more : List Char} {c d : Char} (hd : d ≠ c)
    (h : text ++ d :: rest = c :: c :: c :: more) : ∃ others, text = c :: c :: c :: others := by
  rcases text with _ | ⟨a, _ | ⟨b, _ | ⟨e, others⟩⟩⟩
  · exact absurd (List.cons.inj h).1 hd
  · simp [hd] at h
  · simp [hd] at h
  · simp only [List.cons_append, List.cons.injEq] at h
    obtain ⟨rfl, rfl, rfl, -⟩ := h
    exact ⟨others, rfl⟩

theorem isDocumentMark_append {text : List Char} {d : Char} (h : startsWithMark text = false)
    (hd : d ≠ '-' ∧ d ≠ '.') (rest : List Char) : isDocumentMark (text ++ d :: rest) = false := by
  unfold isDocumentMark
  split
  next heq =>
    obtain ⟨others, rfl⟩ := eq_of_append_cons hd.1 heq
    cases h
  next heq =>
    obtain ⟨others, rfl⟩ := eq_of_append_cons hd.2 heq
    cases h
  next => rfl

end ApiTidy.Yaml
