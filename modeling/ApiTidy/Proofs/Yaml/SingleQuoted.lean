import ApiTidy.Proofs.Yaml.Style
import ApiTidy.Proofs.Yaml.Position
import ApiTidy.Yaml.Token.Quoted

/-!
A text in single quotes is read back. Its breaks are those that are no line feeds, so all of them
stand for themselves; the spaces that indent the lines after them do not count, and no space of the
text stands next to a break.
-/
namespace ApiTidy.Yaml

/-- How the gap before the next character goes with the character before it. -/
inductive Gap.Follows : Char → Gap → Prop
  | word {c : Char} : c ≠ ' ' → isBreak c = false → Follows c .none
  | blanks {reversed : List Char} : Follows ' ' (.blanks reversed)
  | lines {c first : Char} {reversed : List Char} : isBreak c = true → first ≠ '\n' →
      Follows c (.lines (some first) reversed)

/-- What a text must be like to stand between single quotes. -/
theorem fitsSingleQuotes_iff {text : List Char} :
    fitsSingleQuotes text = true ↔ (∀ c ∈ text, isPrintable c = true) ∧
      hasPair isBreak (· = ' ') text = false ∧ hasPair (· = ' ') isBreak text = false := by
  simp [fitsSingleQuotes, isShowable, hasSpaceAfterBreak, hasSpaceBeforeBreak, and_assoc]

theorem hasPair_cons_cons {first second : Char → Bool} {a b : Char} {rest : List Char} :
    hasPair first second (a :: b :: rest) = false ↔
      ¬ (first a = true ∧ second b = true) ∧ hasPair first second (b :: rest) = false := by
  simp [hasPair]

/-- The spaces that indent a line are left out. -/
theorem singleQuotedFrom_spaces (done rest : List Char) {first : Option Char} {reversed : List Char}
    (count : Nat) (p : Position) :
    singleQuotedFrom done (.lines first reversed) p (spaces count ++ rest) =
      singleQuotedFrom done (.lines first reversed) (p.after (spaces count)) rest := by
  induction count generalizing p with
  | zero => rfl
  | succ count ih =>
    have hmark : isDocumentMark (' ' :: (spaces count ++ rest)) = false := rfl
    have hspaces : spaces (count + 1) = ' ' :: spaces count := rfl
    rw [hspaces, List.cons_append, singleQuotedFrom, hmark]
    · simpa [isBlank, Gap.addBlank] using ih (p.past ' ')
    · exact fun _ h => absurd h (by decide)

theorem Gap.reversed_lines {first : Char} (h : first ≠ '\n') (more : List Char) :
    (lines (some first) more).reversed = more ++ [first] := by
  cases more <;> simp [reversed, h]

/-- A break that is no line feed counts, unless blanks stand before it. -/
theorem Gap.Follows.addBreak {a c : Char} {gap : Gap} (h : Follows a gap) (ha : a ≠ ' ')
    (hbreak : isBreak c = true) (hfeed : c ≠ '\n') :
    Follows c (gap.addBreak c) ∧ (gap.addBreak c).reversed = c :: gap.reversed := by
  cases h with
  | word _ _ => exact ⟨.lines hbreak hfeed, reversed_lines hfeed []⟩
  | blanks => exact absurd rfl ha
  | @lines first more _ _ hfirst =>
    refine ⟨.lines hbreak hfirst, ?_⟩
    rw [Gap.addBreak, reversed_lines hfirst, reversed_lines hfirst, List.cons_append]

theorem Gap.Follows.addBlank {a : Char} {gap : Gap} (h : Follows a gap) (ha : isBreak a = false) :
    Follows ' ' (gap.addBlank ' ') ∧ (gap.addBlank ' ').reversed = ' ' :: gap.reversed := by
  cases h with
  | word _ _ => exact ⟨.blanks, rfl⟩
  | blanks => exact ⟨.blanks, rfl⟩
  | lines hbreak _ => rw [hbreak] at ha; cases ha

theorem isBlank_of_isBreak {c : Char} (h : isBreak c = true) : isBlank c = false := by
  simp only [isBreak, Bool.or_eq_true, decide_eq_true_eq] at h
  rcases h with (((rfl | rfl) | rfl) | rfl) | rfl <;> rfl

theorem isDocumentMark_of_isBreak {c : Char} (h : isBreak c = true) (rest : List Char) :
    isDocumentMark (c :: rest) = false := by
  simp only [isBreak, Bool.or_eq_true, decide_eq_true_eq] at h
  rcases h with (((rfl | rfl) | rfl) | rfl) | rfl <;> rfl

theorem singleQuotedFrom_break {c : Char} (h : isBreak c = true) (done rest : List Char) (gap : Gap)
    (p : Position) : singleQuotedFrom done gap p (c :: rest) =
      singleQuotedFrom done (gap.addBreak c) (p.past c) rest := by
  have hquote : c ≠ '\'' := by
    rintro rfl
    exact absurd h (by decide)
  rw [singleQuotedFrom, isDocumentMark_of_isBreak h, isBlank_of_isBreak h, h]
  · simp [hquote]
  · exact fun _ hc => absurd hc hquote

/-- A character on a line, other than a quote. -/
theorem singleQuotedFrom_word {c : Char} {p : Position} (hquote : c ≠ '\'')
    (hbreak : isBreak c = false) (hcolumn : p.column ≠ 0) (done rest : List Char) (gap : Gap) :
    singleQuotedFrom done gap p (c :: rest) =
      if isBlank c then singleQuotedFrom done (gap.addBlank c) (p.past c) rest
      else singleQuotedFrom (c :: (gap.reversed ++ done)) .none (p.past c) rest := by
  rw [singleQuotedFrom, hbreak]
  · simp [hquote, hcolumn]
  · exact fun _ hc => absurd hc hquote

theorem singleQuotedFrom_end {rest : List Char} (hrest : rest.head? ≠ some '\'') (done : List Char)
    (gap : Gap) (p : Position) : singleQuotedFrom done gap p ('\'' :: rest) =
      .ok ((gap.reversed ++ done).reverse, ⟨rest, p.right 1⟩) := by
  have hmark : isDocumentMark ('\'' :: rest) = false := rfl
  rw [singleQuotedFrom, hmark]
  · simp
  · rintro others - rfl
    exact hrest rfl

/-- How the body of a single-quoted text starts: with the indentation, on a new line. -/
theorem singleQuotedFrom_margin {a : Char} {gap : Gap} (h : Gap.Follows a gap) (indent : Nat)
    (done rest : List Char) (p : Position) :
    singleQuotedFrom done gap p ((if isBreak a then spaces indent else []) ++ rest) =
      singleQuotedFrom done gap (p.after (if isBreak a then spaces indent else [])) rest := by
  cases h with
  | word _ hbreak => rw [hbreak, if_neg Bool.false_ne_true]; rfl
  | blanks => rfl
  | lines hbreak _ => rw [hbreak, if_pos rfl, singleQuotedFrom_spaces]

section Body
variable {indent : Nat} {a c : Char} {others rest : List Char} {p : Position}

/-- What follows a character of a text is read back, up to the closing quote. It may stand anywhere
on a line but at its start, where the indentation comes first. -/
def ReadToQuote (indent : Nat) (rest : List Char) (a : Char) (text : List Char) : Prop :=
  ∀ ⦃done : List Char⦄ ⦃gap : Gap⦄ ⦃p : Position⦄, Gap.Follows a gap →
    (isBreak a = false → p.column ≠ 0) →
    singleQuotedFrom done gap p (singleQuotedBody indent (isBreak a) text ++ rest) =
      .ok ((gap.reversed ++ done).reverse ++ text,
        ⟨rest, p.after (singleQuotedBody indent (isBreak a) text)⟩)

theorem readToQuote_nil (hrest : rest.head? ≠ some '\'') : ReadToQuote indent rest a [] := by
  intro done gap p hgap _
  rw [singleQuotedBody, List.append_assoc, singleQuotedFrom_margin hgap, List.singleton_append,
    singleQuotedFrom_end hrest, List.append_nil, Position.after_append]
  rfl

theorem readToQuote_break (ha : a ≠ ' ') (hbreak : isBreak c = true) (hfeed : c ≠ '\n')
    (h : ReadToQuote indent rest c others) : ReadToQuote indent rest a (c :: others) := by
  intro done gap p hgap _
  obtain ⟨hnext, hcontent⟩ := hgap.addBreak ha hbreak hfeed
  have hlater := @h done _ (p.past c) hnext fun hword => by simp [hbreak] at hword
  rw [hbreak] at hlater
  rw [singleQuotedBody, if_pos hbreak, List.cons_append, singleQuotedFrom_break hbreak, hlater,
    hcontent]
  simp

theorem readToQuote_quote (h : ReadToQuote indent rest '\'' others) :
    ReadToQuote indent rest a ('\'' :: others) := by
  intro done gap p hgap _
  have hposition : ∀ q : Position, q.after ['\'', '\''] = q.right 2 :=
    fun q => Position.after_narrow (by decide) q
  have hlater : ∀ {done : List Char} {q : Position}, q.column ≠ 0 →
      singleQuotedFrom done .none q (singleQuotedBody indent false others ++ rest) =
        .ok (done.reverse ++ others, ⟨rest, q.after (singleQuotedBody indent false others)⟩) :=
    fun hq => h (.word (by decide) (by decide)) fun _ => hq
  rw [singleQuotedBody, if_neg (by decide), if_pos rfl, List.append_assoc, List.append_assoc,
    singleQuotedFrom_margin hgap, List.cons_append, List.cons_append, List.nil_append,
    singleQuotedFrom, hlater (Nat.succ_ne_zero _), Position.after_append, Position.after_append,
    hposition]
  simp

theorem column_after_margin (hindent : 0 < indent) (hcolumn : isBreak a = false → p.column ≠ 0) :
    (p.after (if isBreak a then spaces indent else [])).column ≠ 0 := by
  split
  next =>
    rw [Position.after_spaces]
    show p.column + indent ≠ 0
    omega
  next ha => exact hcolumn (by simpa using ha)

theorem readToQuote_word (hindent : 0 < indent) (hprintable : isPrintable c = true)
    (hquote : c ≠ '\'') (hbreak : isBreak c = false) (hspace : ¬ (isBreak a = true ∧ c = ' '))
    (h : ReadToQuote indent rest c others) : ReadToQuote indent rest a (c :: others) := by
  intro done gap p hgap hcolumn
  have hlater : ∀ {gap : Gap} {done : List Char} {q : Position}, Gap.Follows c gap → q.column ≠ 0 →
      singleQuotedFrom done gap q (singleQuotedBody indent false others ++ rest) =
        .ok ((gap.reversed ++ done).reverse ++ others,
          ⟨rest, q.after (singleQuotedBody indent false others)⟩) := by
    intro gap done q hnext hq
    have hread := @h done gap q hnext fun _ => hq
    rwa [hbreak] at hread
  have hpast : ((p.after (if isBreak a then spaces indent else [])).past c).column ≠ 0 := by
    rw [Position.past_of_not_break hbreak]
    exact Nat.succ_ne_zero _
  rw [singleQuotedBody, hbreak, if_neg Bool.false_ne_true, if_neg hquote, List.append_assoc,
    List.append_assoc, singleQuotedFrom_margin hgap, List.singleton_append,
    singleQuotedFrom_word hquote hbreak (column_after_margin hindent hcolumn)]
  split
  next hblank =>
    obtain rfl := (isBlank_of_isPrintable hprintable).1 hblank
    have ha : isBreak a = false := by simpa using hspace
    obtain ⟨hnext, hcontent⟩ := hgap.addBlank ha
    rw [hlater hnext hpast, hcontent]
    simp
  next hblank =>
    have hc : c ≠ ' ' := fun hc => hblank ((isBlank_of_isPrintable hprintable).2 hc)
    rw [hlater (.word hc hbreak) hpast]
    simp [Gap.reversed]

/-- The rest of a text between single quotes is read back. -/
theorem readToQuote (hindent : 0 < indent) (hrest : rest.head? ≠ some '\'') {text : List Char}
    (hshown : ∀ c ∈ text, isPrintable c = true ∧ c ≠ '\n')
    (hafter : hasPair isBreak (· = ' ') (a :: text) = false)
    (hbefore : hasPair (· = ' ') isBreak (a :: text) = false) : ReadToQuote indent rest a text := by
  induction text generalizing a with
  | nil => exact readToQuote_nil hrest
  | cons c others ih =>
    obtain ⟨⟨hprintable, hfeed⟩, hothers⟩ := List.forall_mem_cons.1 hshown
    obtain ⟨hnotAfter, hafterLater⟩ := hasPair_cons_cons.1 hafter
    obtain ⟨hnotBefore, hbeforeLater⟩ := hasPair_cons_cons.1 hbefore
    have hlater := ih hothers hafterLater hbeforeLater
    cases hbreak : isBreak c with
    | true =>
      have ha : a ≠ ' ' := fun ha => hnotBefore ⟨decide_eq_true ha, hbreak⟩
      exact readToQuote_break ha hbreak hfeed hlater
    | false =>
      by_cases hquote : c = '\''
      · subst hquote
        exact readToQuote_quote hlater
      · exact readToQuote_word hindent hprintable hquote hbreak (by simpa using hnotAfter) hlater

end Body

/-- A text in single quotes is read back, and what follows the quotes is left. -/
theorem singleQuoted_styled {indent : Nat} (hindent : 0 < indent) {text : List Char}
    (htext : fitsSingleQuotes text = true) (hline : '\n' ∉ text) {rest : List Char}
    (hrest : rest.head? ≠ some '\'') (p : Position) :
    singleQuoted ⟨styled indent text .singleQuoted ++ rest, p⟩ =
      .ok (text, ⟨rest, p.after (styled indent text .singleQuoted)⟩) := by
  obtain ⟨hshown, hafter, hbefore⟩ := fitsSingleQuotes_iff.1 htext
  have hfirst : ∀ {first second : Char → Bool}, first '\'' = false →
      hasPair first second text = false → hasPair first second ('\'' :: text) = false := by
    intro first second hquote hpair
    cases text with
    | nil => rfl
    | cons c others => exact hasPair_cons_cons.2 ⟨fun h => absurd h.1 (by simp [hquote]), hpair⟩
  have hcolumn : (p.past '\'').column ≠ 0 := by
    rw [Position.past_of_not_break (by decide)]
    exact Nat.succ_ne_zero _
  have hread : ReadToQuote indent rest '\'' text :=
    readToQuote hindent hrest (fun c hc => ⟨hshown c hc, fun hfeed => hline (hfeed ▸ hc)⟩)
      (hfirst (by decide) hafter) (hfirst (by decide) hbefore)
  have hcursor : (⟨styled indent text .singleQuoted ++ rest, p⟩ : Cursor).forward 1 =
      ⟨singleQuotedBody indent false text ++ rest, p.past '\''⟩ :=
    Cursor.forward_append ['\''] _ p
  rw [singleQuoted, hcursor]
  exact hread (.word (by decide) (by decide)) fun _ => hcolumn

end ApiTidy.Yaml
