import ApiTidy.Proofs.Yaml.Block
import ApiTidy.Proofs.Yaml.DoubleQuoted
import ApiTidy.Proofs.Yaml.SingleQuoted
import ApiTidy.Proofs.Yaml.Turns

/-!
A scalar in its style is read as one token, as the value on a line of its own or as a key before its
colon.
-/
namespace ApiTidy.Yaml

/-- A scalar in a style with the end of its line. -/
def styledLine (indent : Nat) (text : List Char) (style : ScalarStyle) : List Char :=
  styled indent text style ++ if style = .literal then [] else ['\n']

theorem column_after_styledLine (indent : Nat) (text : List Char) (style : ScalarStyle)
    (p : Position) : (p.after (styledLine indent text style)).column = 0 := by
  unfold styledLine
  split
  next h => rw [h, List.append_nil, column_after_literal]
  next => exact (Position.line_lt_after_feed _ p).2

/-- A text that needs no quotes starts a token. -/
theorem startsToken_of_fitsPlain {c : Char} {others : List Char}
    (h : fitsPlain (c :: others) = true) : StartsToken c := by
  obtain ⟨hblank, hbreak⟩ := first_of_fitsPlain h
  obtain ⟨hshown, -, -, hstart, -⟩ := fitsPlain_iff.1 h
  refine ⟨hblank, hbreak, ?_, ?_⟩
  · rintro rfl
    exact (of_startsWithMark_eq_false hstart).1 (by decide)
  · rintro rfl
    exact absurd (hshown _ List.mem_cons_self).1 (by decide)

namespace Lexer
variable {s t : Lexer} {tokens : List Token} {indents : List Nat} {keyAllowed : Bool} {indent : Nat}
  {p q : Position} {text rest : List Char} {c : Char} {style : ScalarStyle}

/-- At a character that is no mark a plain scalar is read, and so it is at one that is a mark only
at the end of a word. -/
theorem readToken_of_word (hflow : s.inFlow = false) (hblank : isBlank c = false)
    (hbreak : isBreak c = false) (hmarks : c ∉ "#,[]\x7b\x7d&*!|>'\"%@`".toList)
    (hword : c = '?' ∨ c = ':' ∨ c = '-' → endsWord rest = false) :
    s.readToken c rest = s.readPlain := by
  unfold readToken
  split
  case h_6 => rw [hword (by simp), if_neg (by simp)]
  case h_7 => rw [hword (by simp), hflow, if_neg (by simp)]
  case h_8 => rw [hword (by simp), hflow, if_neg (by simp)]
  case h_16 =>
    have hlast : "#%@`".contains c = false := by
      simp at hmarks
      simp [hmarks]
    rw [hblank, hbreak, hlast, if_neg (by simp)]
  all_goals exact absurd (by decide) hmarks

/-- No mark stands at the front of a text that needs no quotes, so a plain scalar is read. -/
theorem step_plain (hfits : fitsPlain text = true) (htext : text ≠ []) {d : Char}
    (hd : d ≠ '-' ∧ d ≠ '.') (more : List Char) :
    (ready tokens indents keyAllowed p (text ++ d :: more)).step =
      (ready tokens indents keyAllowed p (text ++ d :: more)).readPlain := by
  obtain ⟨c, others, rfl⟩ := List.exists_cons_of_ne_nil htext
  obtain ⟨hblank, hbreak⟩ := first_of_fitsPlain hfits
  obtain ⟨-, -, -, hstart, -⟩ := fitsPlain_iff.1 hfits
  obtain ⟨hmarks, hwords⟩ := of_startsWithMark_eq_false hstart
  have hdocument : isDocumentMark (c :: (others ++ d :: more)) = false :=
    isDocumentMark_append hstart hd more
  have hdirective : c ≠ '%' := by
    rintro rfl
    exact hmarks (by decide)
  exact (step_between hdirective hdocument).trans (readToken_of_word rfl hblank hbreak hmarks
    fun hc => endsWord_append (hwords hc) (d :: more))

section Read

theorem readPlain_ready {scalar : PlainScalar}
    (hscan : plain false (inner indents) ⟨text, p⟩ = .ok (scalar, ⟨rest, q⟩)) :
    (ready tokens indents keyAllowed p text).readPlain =
      .ok (between (keyAt tokens indents keyAllowed p)
        (tokens ++ [.scalar .plain (String.ofList scalar.text)]) indents scalar.endsLine q rest) := by
  rw [readPlain, rememberKey_ready]
  refine Except.bind_eq_ok.2 ⟨_, rfl, Except.bind_eq_ok.2 ⟨(scalar, ⟨rest, q⟩), hscan, ?_⟩⟩
  exact congrArg Except.ok (push_between _ _ scalar.endsLine)

theorem readSingleQuoted_ready {found : List Char}
    (hscan : singleQuoted ⟨text, p⟩ = .ok (found, ⟨rest, q⟩)) :
    (ready tokens indents keyAllowed p text).readSingleQuoted =
      .ok (between (keyAt tokens indents keyAllowed p)
        (tokens ++ [.scalar .singleQuoted (String.ofList found)]) indents false q rest) := by
  rw [readSingleQuoted, rememberKey_ready]
  refine Except.bind_eq_ok.2 ⟨_, rfl, Except.bind_eq_ok.2 ⟨(found, ⟨rest, q⟩), hscan, ?_⟩⟩
  exact congrArg Except.ok (push_between _ _ false)

theorem readDoubleQuoted_ready {found : List Char}
    (hscan : doubleQuoted ⟨text, p⟩ = .ok (found, ⟨rest, q⟩)) :
    (ready tokens indents keyAllowed p text).readDoubleQuoted =
      .ok (between (keyAt tokens indents keyAllowed p)
        (tokens ++ [.scalar .doubleQuoted (String.ofList found)]) indents false q rest) := by
  rw [readDoubleQuoted, rememberKey_ready]
  refine Except.bind_eq_ok.2 ⟨_, rfl, Except.bind_eq_ok.2 ⟨(found, ⟨rest, q⟩), hscan, ?_⟩⟩
  exact congrArg Except.ok (push_between _ _ false)

/-- A block scalar never starts a key. -/
theorem readBlockScalar_ready {found : List Char}
    (hscan : blockScalar false indents.head? ⟨text, p⟩ = .ok (found, ⟨rest, q⟩)) :
    (ready tokens indents keyAllowed p text).readBlockScalar .literal =
      .ok (ready (tokens ++ [.scalar .literal (String.ofList found)]) indents true q rest) := by
  refine Except.bind_eq_ok.2 ⟨ready tokens indents keyAllowed p text, rfl, ?_⟩
  refine Except.bind_eq_ok.2 ⟨(found, ⟨rest, q⟩), hscan, ?_⟩
  exact congrArg Except.ok (push_between none _ true)

end Read

theorem line_lt_next (text : List Char) (count : Nat) (p : Position) :
    p.line < ((p.after (text ++ ['\n'])).after (spaces count)).line :=
  Nat.lt_of_lt_of_le (Position.line_lt_after_feed text p).1 (Position.line_le_after _ _)

/-- A token that takes up the rest of its line. -/
theorem leads_token {token : Token} {keyStart : Option KeyStart} {endsLine : Bool} {r : Position}
    {count : Nat} {left more after : List Char} (hc : StartsToken c)
    (hinner : inner indents ≤ p.column)
    (hstep : (ready tokens indents keyAllowed p (c :: more)).step =
      .ok (between keyStart (tokens ++ [token]) indents endsLine r after))
    (hskip : skipSpace false endsLine false r after = (true, ⟨left, q.after (spaces count)⟩))
    (hkey : KeyStart.refresh (q.after (spaces count)) keyStart = .ok none)
    (hleft : ∀ d ∈ left.head?, StartsToken d)
    (hlength : (spaces count ++ left).length ≤ more.length) :
    Leads (ready tokens indents keyAllowed p (c :: more))
      (ready (tokens ++ [token]) indents true q (spaces count ++ left)) := by
  refine .of_step (toToken_of_word hc (by omega) rfl) (List.cons_ne_nil c more) hstep ?_
    (Nat.lt_succ_of_le hlength)
  exact toToken_of_line hleft hkey hskip

/-- A quoted token, which leaves the end of its line. -/
theorem leads_quoted {token : Token} {mayStart : Bool} {quoted : List Char} (hc : StartsToken c)
    (hinner : inner indents ≤ p.column)
    (hstep : (ready tokens indents keyAllowed p (c :: (quoted ++ '\n' :: rest))).step =
      .ok (between (keyAt tokens indents mayStart p) (tokens ++ [token]) indents false
        (p.after (c :: quoted)) ('\n' :: rest)))
    (hrest : LeftOf (inner indents) rest) :
    Leads (ready tokens indents keyAllowed p (c :: (quoted ++ '\n' :: rest)))
      (ready (tokens ++ [token]) indents true (p.after (c :: quoted ++ ['\n'])) rest) := by
  obtain ⟨count, left, rfl, hleft⟩ := hrest.exists_spaces
  refine leads_token hc hinner hstep ?_ (refresh_keyAt hinner (line_lt_next (c :: quoted) count p))
    hleft ?_
  · rw [Position.after_append]
    exact skipSpace_spaces count hleft ((p.after (c :: quoted)).past '\n')
  · simp
    omega

/-- A scalar up to the end of its line, when what follows is further left. -/
theorem leads_line (hstyle : style.Holds text) (hinner : inner indents ≤ p.column)
    (hindent : indent = indents.head?.getD 0 + 2) (hrest : LeftOf (inner indents) rest) :
    Leads (ready tokens indents keyAllowed p (styledLine indent text style ++ rest))
      (ready (tokens ++ [.scalar style (String.ofList text)]) indents true
        (p.after (styledLine indent text style)) rest) := by
  have hpositive : 0 < indent := by omega
  cases style with
  | plain =>
    obtain ⟨hfits, htext⟩ := hstyle
    obtain ⟨count, left, rfl, hleft, hscan⟩ := plain_line hfits htext (Nat.le_succ_of_le hinner) hrest
    obtain ⟨c, others, rfl⟩ := List.exists_cons_of_ne_nil htext
    have hread : (ready tokens indents keyAllowed p
        (c :: others ++ '\n' :: (spaces count ++ left))).step = _ :=
      (step_plain hfits htext (by decide) _).trans (readPlain_ready hscan)
    have hline : styledLine indent (c :: others) .plain = c :: others ++ ['\n'] := rfl
    rw [hline, List.append_assoc]
    refine leads_token (startsToken_of_fitsPlain hfits) hinner hread (skipSpace_spaces 0 hleft _)
      (refresh_keyAt hinner (line_lt_next (c :: others) count p)) hleft ?_
    simp
    omega
  | singleQuoted =>
    obtain ⟨hfits, hfeed⟩ := hstyle
    have hquote : ('\n' :: rest).head? ≠ some '\'' := by simp
    have hread : (ready tokens indents keyAllowed p
        (styled indent text .singleQuoted ++ '\n' :: rest)).step = _ :=
      (step_between (by decide) rfl).trans
        (readSingleQuoted_ready (singleQuoted_styled hpositive hfits hfeed hquote p))
    have hline : styledLine indent text .singleQuoted =
      styled indent text .singleQuoted ++ ['\n'] := rfl
    rw [hline, List.append_assoc]
    exact leads_quoted (by decide) hinner hread hrest
  | doubleQuoted =>
    have hread : (ready tokens indents keyAllowed p
        (styled indent text .doubleQuoted ++ '\n' :: rest)).step = _ :=
      (step_between (by decide) rfl).trans
        (readDoubleQuoted_ready (doubleQuoted_styled indent text ('\n' :: rest) p))
    have hline : styledLine indent text .doubleQuoted =
      styled indent text .doubleQuoted ++ ['\n'] := rfl
    rw [hline, List.append_assoc]
    exact leads_quoted (by decide) hinner hread hrest
  | literal =>
    obtain ⟨hfits, hfeed⟩ := hstyle
    have hleftOf : LeftOf indent rest := hrest.mono (by rw [hindent, inner]; cases indents <;> simp)
    obtain ⟨count, left, rfl, hleft, hscan⟩ := blockScalar_styled hindent hfits hfeed hleftOf p
    have hread : (ready tokens indents keyAllowed p
        (styled indent text .literal ++ (spaces count ++ left))).step = _ :=
      (step_between (by decide) rfl).trans (readBlockScalar_ready hscan)
    have hline : styledLine indent text .literal = styled indent text .literal := List.append_nil _
    rw [hline]
    have hmark : StartsToken '|' := (by decide)
    rw [styled_literal] at hread ⊢
    refine leads_token hmark hinner hread (skipSpace_spaces 0 hleft _) rfl hleft ?_
    simp
    omega
  | folded => cases hstyle

/-- A scalar on one line before a colon, where a key may start. -/
theorem step_key (hstyle : style.Holds text) (hline : OneLine text) (hindent : 0 < indent)
    (hinner : inner indents ≤ p.column + 1) (hrest : endsWord rest = true) :
    (ready tokens indents keyAllowed p (styled indent text style ++ ':' :: rest)).step =
      .ok (between (keyAt tokens indents keyAllowed p)
        (tokens ++ [.scalar style (String.ofList text)]) indents false
        (p.after (styled indent text style)) (':' :: rest)) := by
  cases style with
  | plain =>
    obtain ⟨hfits, htext⟩ := hstyle
    exact (step_plain hfits htext (by decide) rest).trans
      (readPlain_ready (plain_key hfits htext hinner hrest))
  | singleQuoted =>
    obtain ⟨hfits, hfeed⟩ := hstyle
    have hquote : (':' :: rest).head? ≠ some '\'' := by simp
    exact (step_between (by decide) rfl).trans
      (readSingleQuoted_ready (singleQuoted_styled hindent hfits hfeed hquote p))
  | doubleQuoted =>
    exact (step_between (by decide) rfl).trans
      (readDoubleQuoted_ready (doubleQuoted_styled indent text (':' :: rest) p))
  | literal => exact absurd (hline _ hstyle.2) (by decide)
  | folded => cases hstyle

/-- A scalar in any style starts a token. -/
theorem startsToken_styled (indent : Nat) (hstyle : style.Holds text) :
    ∃ c more, styled indent text style = c :: more ∧ StartsToken c := by
  cases style with
  | plain =>
    obtain ⟨c, others, rfl⟩ := List.exists_cons_of_ne_nil hstyle.2
    exact ⟨c, others, rfl, startsToken_of_fitsPlain hstyle.1⟩
  | singleQuoted => exact ⟨_, _, rfl, by decide⟩
  | doubleQuoted => exact ⟨_, _, rfl, by decide⟩
  | literal => exact ⟨_, _, styled_literal indent text, by decide⟩
  | folded => cases hstyle

end Lexer
end ApiTidy.Yaml
