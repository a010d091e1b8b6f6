import ApiTidy.Proofs.Yaml.Style
import ApiTidy.Proofs.Yaml.Position

/-!
A plain text is read back: nothing in it ends it. A key ends at its colon. A value ends with its
line, since the next line starts further left, and its scan goes on to the first word there.
-/
namespace ApiTidy.Yaml

/-- A character that starts a token wherever it stands. -/
def StartsToken (c : Char) : Prop :=
  isBlank c = false ∧ isBreak c = false ∧ c ≠ '#' ∧ c ≠ byteOrderMark

instance (c : Char) : Decidable (StartsToken c) := inferInstanceAs (Decidable (_ ∧ _ ∧ _ ∧ _))

/-- Nothing follows, or a line whose first token stands left of a column. -/
def LeftOf (column : Nat) (rest : List Char) : Prop :=
  rest = [] ∨ ∃ count c more, count < column ∧ StartsToken c ∧ rest = spaces count ++ c :: more

theorem LeftOf.mono {column further : Nat} {rest : List Char} (h : LeftOf column rest)
    (hle : column ≤ further) : LeftOf further rest := by
  rcases h with h | ⟨count, c, more, hcount, hc, hrest⟩
  · exact .inl h
  · exact .inr ⟨count, c, more, Nat.lt_of_lt_of_le hcount hle, hc, hrest⟩

/-- The indentation of what follows, and its first token. -/
theorem LeftOf.exists_spaces {column : Nat} {rest : List Char} (h : LeftOf column rest) :
    ∃ count left, rest = spaces count ++ left ∧ ∀ c ∈ left.head?, StartsToken c := by
  rcases h with rfl | ⟨count, c, more, -, hc, rfl⟩
  · exact ⟨0, [], rfl, by simp⟩
  · exact ⟨count, c :: more, rfl, by simpa using hc⟩

variable {indent : Nat} {a : Char} {text rest : List Char} {gap : Gap} {p : Position}

/-- A character of a word that is no mark at its end, nor a comment after a blank. -/
theorem plainFrom_word {c : Char} {others : List Char} (done rest : List Char)
    (hprintable : isPrintable c = true) (hbreak : isBreak c = false) (hspace : c ≠ ' ')
    (hcolon : c = ':' → endsWord others = false) (hsign : gap = .none ∨ c ≠ '#')
    (hcolumn : p.column ≠ 0) (hindent : indent ≤ p.column) :
    plainFrom false indent done gap p (c :: (others ++ rest)) =
      plainFrom false indent (c :: (gap.reversed ++ done)) .none (p.past c) (others ++ rest) := by
  have hblank : isBlank c = false := by
    simpa [hspace] using isBlank_of_isPrintable hprintable
  have hword : (!gap.isNone && endsBeforeWord false indent p (c :: (others ++ rest))) = false := by
    rcases hsign with rfl | hsign
    · rfl
    · simp [endsBeforeWord, hcolumn, hsign, hindent]
  rw [plainFrom, hblank, hbreak, hword, endsWithinWord, isValueMark_append hcolon]
  simp

/-- No mark inside a text ends the scan of it, whatever follows. -/
theorem plainFrom_text (done rest : List Char)
    (hshown : ∀ c ∈ a :: text, isPrintable c = true ∧ isBreak c = false)
    (hmark : hasInnerMark (a :: text) = false) (hlast : (a :: text).getLast? ≠ some ' ')
    (hgap : gap = .none ∨ a = ' ' ∧ ∃ reversed, gap = .blanks reversed)
    (hcolumn : p.column ≠ 0) (hindent : indent ≤ p.column) :
    plainFrom false indent done gap p (text ++ rest) =
      plainFrom false indent (text.reverse ++ gap.reversed ++ done) .none (p.after text) rest := by
  -- along the text with the character before it, which tells whether a number sign is a comment
  induction text generalizing a done gap p with
  | nil =>
    have ha : a ≠ ' ' := fun ha => hlast (by rw [ha]; rfl)
    obtain rfl := hgap.resolve_right fun h => ha h.1
    rfl
  | cons c others ih =>
    obtain ⟨hprintable, hbreak⟩ := hshown c (by simp)
    have hpast : (p.past c).column = p.column + 1 := by rw [Position.past_of_not_break hbreak]
    have hothers : ∀ d ∈ c :: others, isPrintable d = true ∧ isBreak d = false :=
      fun d hd => hshown d (List.mem_cons_of_mem a hd)
    have hend : (c :: others).getLast? ≠ some ' ' := by
      rwa [List.getLast?_cons_cons] at hlast
    rw [hasInnerMark, Bool.or_eq_false_iff, Bool.or_eq_false_iff] at hmark
    obtain ⟨⟨hcolon, hcomment⟩, hinner⟩ := hmark
    by_cases hspace : c = ' '
    · subst hspace
      obtain ⟨reversed, hnext, hcontent⟩ : ∃ reversed, gap.addBlank ' ' = .blanks reversed ∧
          (gap.addBlank ' ').reversed = ' ' :: gap.reversed := by
        rcases hgap with rfl | ⟨-, reversed, rfl⟩
        · exact ⟨_, rfl, rfl⟩
        · exact ⟨_, rfl, rfl⟩
      have hlater := ih done hothers hinner hend (.inr ⟨rfl, reversed, hnext⟩)
        (by omega : (p.past ' ').column ≠ 0) (by omega)
      rw [List.cons_append, plainFrom, if_pos (by decide), hlater, hcontent]
      simp
    · have hsign : gap = .none ∨ c ≠ '#' := by
        refine hgap.imp_right fun h hc => ?_
        rw [h.1, hc] at hcomment
        exact absurd hcomment (by decide)
      have hlater := ih (c :: (gap.reversed ++ done)) hothers hinner hend (.inl rfl)
        (by omega : (p.past c).column ≠ 0) (by omega)
      rw [List.cons_append, plainFrom_word done rest hprintable hbreak hspace
        (fun hc => by simpa [hc] using hcolon) hsign hcolumn hindent, hlater]
      simp [Gap.reversed]

/-- Before a colon at the end of a word the scan ends. -/
theorem plainFrom_colon (done : List Char) (hrest : endsWord rest = true) :
    plainFrom false indent done .none p (':' :: rest) =
      .ok (⟨done.reverse, false⟩, ⟨':' :: rest, p⟩) := by
  simp [plainFrom, isBlank, isBreak, Gap.isNone, endsWithinWord, isValueMark, hrest, Gap.hasBreak]

/-- The spaces that indent the next line are passed over. -/
theorem plainFrom_spaces (done : List Char) {first : Option Char} {reversed : List Char}
    (count : Nat) :
    plainFrom false indent done (.lines first reversed) p (spaces count ++ rest) =
      plainFrom false indent done (.lines first reversed) (p.after (spaces count)) rest := by
  induction count generalizing p with
  | zero => rfl
  | succ count ih =>
    have hspaces : spaces (count + 1) = ' ' :: spaces count := rfl
    rw [hspaces, List.cons_append, plainFrom, if_pos (by decide), if_neg (by simp)]
    exact ih

/-- At the end of its line the scan goes on to the next word, which does not belong to it. -/
theorem plainFrom_line (done : List Char) (hrest : LeftOf indent rest) :
    ∃ count left, rest = spaces count ++ left ∧ (∀ c ∈ left.head?, StartsToken c) ∧
      plainFrom false indent done .none p ('\n' :: rest) =
        .ok (⟨done.reverse, true⟩, ⟨left, (p.past '\n').after (spaces count)⟩) := by
  have hline : plainFrom false indent done .none p ('\n' :: rest) =
      plainFrom false indent done (.lines (some '\n') []) (p.past '\n') rest := by
    rw [plainFrom, if_neg (by decide), if_pos (by decide)]
    rfl
  rw [hline]
  rcases hrest with rfl | ⟨count, c, more, hcount, hc, rfl⟩
  · exact ⟨0, [], rfl, by simp, rfl⟩
  · refine ⟨count, c :: more, rfl, ?_, ?_⟩
    · simpa using hc
    · obtain ⟨hblank, hbreak, -⟩ := hc
      have hcolumn : ((p.past '\n').after (spaces count)).column < indent := by
        rw [Position.after_spaces, Position.past_of_break (by decide)]
        simpa [Position.right] using hcount
      rw [plainFrom_spaces, plainFrom, hblank, hbreak]
      simp [Gap.isNone, Gap.hasBreak, endsBeforeWord, hcolumn]

/-- The scan of a text that needs no quotes gets to its end. Its first word may stand a column further
left than the others must. -/
theorem plain_text (hfits : fitsPlain text = true) (htext : text ≠ [])
    (hindent : indent ≤ p.column + 1) :
    plain false indent ⟨text ++ rest, p⟩ =
      plainFrom false indent text.reverse .none (p.after text) rest := by
  obtain ⟨c, others, rfl⟩ := List.exists_cons_of_ne_nil htext
  obtain ⟨hshown, -, hlast, hstart, hinner⟩ := fitsPlain_iff.1 hfits
  obtain ⟨hblank, hbreak⟩ := first_of_fitsPlain hfits
  have hvalue : isValueMark (c :: (others ++ rest)) = false :=
    isValueMark_append (fun hc => (of_startsWithMark_eq_false hstart).2 (.inr (.inl hc))) _
  have hpast : (p.past c).column = p.column + 1 := by rw [Position.past_of_not_break hbreak]
  have hlater := plainFrom_text (p := p.past c) [c] rest hshown hinner hlast (.inl rfl) (by omega)
    (by omega : indent ≤ (p.past c).column)
  rw [plain, List.cons_append, plainFrom, hblank, hbreak, endsWithinWord, hvalue]
  simpa [Gap.isNone, Gap.reversed] using hlater

/-- A plain key goes up to its colon. -/
theorem plain_key (hfits : fitsPlain text = true) (htext : text ≠ [])
    (hindent : indent ≤ p.column + 1)
    (hrest : endsWord rest = true) :
    plain false indent ⟨text ++ ':' :: rest, p⟩ =
      .ok (⟨text, false⟩, ⟨':' :: rest, p.after text⟩) := by
  rw [plain_text hfits htext hindent, plainFrom_colon _ hrest, List.reverse_reverse]

/-- A plain value goes up to the end of its line. -/
theorem plain_line (hfits : fitsPlain text = true) (htext : text ≠ [])
    (hindent : indent ≤ p.column + 1)
    (hrest : LeftOf indent rest) :
    ∃ count left, rest = spaces count ++ left ∧ (∀ c ∈ left.head?, StartsToken c) ∧
      plain false indent ⟨text ++ '\n' :: rest, p⟩ =
        .ok (⟨text, true⟩, ⟨left, (p.after (text ++ ['\n'])).after (spaces count)⟩) := by
  obtain ⟨count, left, hleft, hstarts, hline⟩ := plainFrom_line (p := p.after text) text.reverse hrest
  refine ⟨count, left, hleft, hstarts, ?_⟩
  rw [plain_text hfits htext hindent, hline, List.reverse_reverse, Position.after_append]
  rfl

end ApiTidy.Yaml
