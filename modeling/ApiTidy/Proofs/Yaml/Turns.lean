import ApiTidy.Proofs.Yaml.Lexer
import ApiTidy.Proofs.Yaml.Plain

/-!
The turns of the loop over a text outside flow collections. They lead from one state to another;
nothing but the next token and what is open decides how it goes on.
-/
namespace ApiTidy.Yaml

/-- The least column that is further right than the innermost of some block collections. -/
def inner (indents : List Nat) : Nat := indents.head?.elim 0 (· + 1)

@[simp] theorem inner_cons (column : Nat) (indents : List Nat) :
    inner (column :: indents) = column + 1 := rfl

namespace Lexer
variable {s t u : Lexer} {tokens : List Token} {indents : List Nat} {keyAllowed : Bool}
  {p q : Position} {text rest left : List Char} {c : Char}

/-- The loop gets from a state to another one. Each turn takes a character. -/
def Leads (s t : Lexer) : Prop :=
  ∃ turns, turns + t.cursor.rest.length ≤ s.cursor.rest.length ∧
    ∀ fuel, run (fuel + turns) s = run fuel t

namespace Leads

theorem refl (s : Lexer) : Leads s s := ⟨0, by omega, fun _ => rfl⟩

theorem trans (hst : Leads s t) (htu : Leads t u) : Leads s u := by
  obtain ⟨first, hfirst, hrun⟩ := hst
  obtain ⟨second, hsecond, hrun'⟩ := htu
  refine ⟨second + first, by omega, fun fuel => ?_⟩
  rw [← Nat.add_assoc, hrun, hrun']

/-- What the next token finds is all that matters. -/
theorem of_toToken (h : s.toToken = t.toToken)
    (hlength : t.cursor.rest.length ≤ s.cursor.rest.length) : Leads s t := by
  refine ⟨0, by omega, fun fuel => ?_⟩
  cases fuel with
  | zero => rfl
  | succ fuel => simp only [run, h]

/-- A turn before the end of the text. -/
theorem of_step {next later : Lexer} (hnext : s.toToken = .ok next) (hrest : next.cursor.rest ≠ [])
    (hstep : next.step = .ok later) (hlater : later.toToken = t.toToken)
    (hlength : t.cursor.rest.length < s.cursor.rest.length) : Leads s t := by
  refine ⟨1, by omega, fun fuel => ?_⟩
  have hend : next.cursor.rest.isEmpty = false := by simpa using hrest
  have hrun : run (fuel + 1) s = run fuel later := by
    rw [run, hnext]
    show (if next.cursor.rest.isEmpty then _ else _) = _
    rw [hend, if_neg Bool.false_ne_true, hstep]
    rfl
  rw [hrun]
  cases fuel with
  | zero => rfl
  | succ fuel => simp only [run, hlater]

end Leads

/-- A state between two tokens outside flow collections. -/
def between (keyStart : Option KeyStart) (tokens : List Token) (indents : List Nat)
    (keyAllowed : Bool) (p : Position) (text : List Char) : Lexer :=
  ⟨⟨text, p⟩, tokens.toArray, indents, keyStart, [], keyAllowed⟩

/-- The state, where no start of a key is remembered. -/
abbrev ready := between none

/-- Where the next token may start a key, if one may start there. -/
def keyAt (tokens : List Token) (indents : List Nat) (keyAllowed : Bool) (p : Position) :
    Option KeyStart :=
  if keyAllowed then some ⟨indents.head? = some p.column, tokens.length, p⟩ else none

theorem rememberKey_ready :
    (ready tokens indents keyAllowed p text).rememberKey =
      .ok (between (keyAt tokens indents keyAllowed p) tokens indents keyAllowed p text) := by
  cases keyAllowed <;> rfl

theorem push_between (keyStart : Option KeyStart) (token : Token) (endsLine : Bool) :
    push (between keyStart tokens indents keyAllowed p text) token ⟨rest, q⟩ endsLine =
      between keyStart (tokens ++ [token]) indents endsLine q rest := by
  simp [push, between]

/-- A start inside a collection is given up on a later line. -/
theorem refresh_keyAt (hinner : inner indents ≤ p.column) (hline : p.line < q.line) :
    KeyStart.refresh q (keyAt tokens indents keyAllowed p) = .ok none := by
  have hrequired : ¬ indents.head? = some p.column := by
    intro hhead
    rw [inner, hhead] at hinner
    exact Nat.not_succ_le_self p.column hinner
  unfold keyAt
  split
  · simp [KeyStart.refresh, KeyStart.isStale, hline, hrequired]
  · rfl

/-- Not far behind it on its line the start is still remembered. -/
theorem refresh_keyAt_near (hline : q.line = p.line)
    (hoctet : q.octet ≤ p.octet + KeyStart.maxLength) :
    KeyStart.refresh q (keyAt tokens indents keyAllowed p) =
      .ok (keyAt tokens indents keyAllowed p) := by
  unfold keyAt
  split
  · simp [KeyStart.refresh, KeyStart.isStale, hline, hoctet]
  · rfl

theorem skipSpace_of_word {inFlow keyAllowed : Bool} (hc : StartsToken c) :
    skipSpace inFlow keyAllowed false p (c :: rest) = (keyAllowed, ⟨c :: rest, p⟩) := by
  obtain ⟨hblank, hbreak, hsign, hmark⟩ := hc
  obtain ⟨hspace, htab⟩ : c ≠ ' ' ∧ c ≠ '\t' := by simpa [isBlank] using hblank
  simp [skipSpace, hbreak, hsign, hspace, htab, hmark]

/-- Spaces are skipped up to the next token or the end. -/
theorem skipSpace_spaces {keyAllowed : Bool} (count : Nat) (hleft : ∀ c ∈ left.head?, StartsToken c)
    (p : Position) :
    skipSpace false keyAllowed false p (spaces count ++ left) =
      (keyAllowed, ⟨left, p.after (spaces count)⟩) := by
  induction count generalizing p with
  | zero =>
    cases left with
    | nil => rfl
    | cons c more => exact skipSpace_of_word (hleft c rfl)
  | succ count ih => exact ih (p.past ' ')

/-- The way to the next token, in steps. -/
theorem toToken_eq {cursor : Cursor}
    (hskip : skipSpace s.inFlow s.keyAllowed false s.cursor.position s.cursor.rest =
      (keyAllowed, cursor)) :
    s.toToken = (refreshKeys { s with keyAllowed, cursor }).map fun s =>
      closeBlocks s (cursor.column + 1) := by
  rw [toToken, hskip]

/-- The way to the next token, where a remembered start of a key is kept or given up. -/
theorem toToken_of_skipSpace {keyStart kept : Option KeyStart} {allowed : Bool}
    (hskip : skipSpace false keyAllowed false p text = (allowed, ⟨rest, q⟩))
    (hkey : KeyStart.refresh q keyStart = .ok kept) :
    (between keyStart tokens indents keyAllowed p text).toToken =
      .ok (closeBlocks (between kept tokens indents allowed q rest) (q.column + 1)) := by
  have hkeys : refreshKeys (between keyStart tokens indents allowed q rest) =
      .ok (between kept tokens indents allowed q rest) :=
    Except.bind_eq_ok.2 ⟨kept, hkey, Except.bind_eq_ok.2 ⟨[], rfl, rfl⟩⟩
  rw [toToken_eq (s := between keyStart tokens indents keyAllowed p text) hskip]
  exact congrArg (Except.map _) hkeys

theorem closeBlocks_of_inner {column : Nat} (h : inner indents ≤ column)
    (keyStart : Option KeyStart) :
    closeBlocks (between keyStart tokens indents keyAllowed p text) column =
      between keyStart tokens indents keyAllowed p text := by
  have hopen : indents.takeWhile (column ≤ ·) = [] := by
    cases indents with
    | nil => rfl
    | cons indent others =>
      rw [inner_cons] at h
      exact List.takeWhile_cons_of_neg (by simp; omega)
  simp [closeBlocks, between, inFlow, hopen]

/-- At a token that is not left of the innermost collection there is nothing to do before it. -/
theorem toToken_of_word {keyStart kept : Option KeyStart} (hc : StartsToken c)
    (hinner : inner indents ≤ p.column + 1) (hkey : KeyStart.refresh p keyStart = .ok kept) :
    (between keyStart tokens indents keyAllowed p (c :: rest)).toToken =
      .ok (between kept tokens indents keyAllowed p (c :: rest)) := by
  rw [toToken_of_skipSpace (skipSpace_of_word hc) hkey]
  exact congrArg Except.ok (closeBlocks_of_inner hinner kept)

/-- At the start of the next line the start of a key that is given up does not matter. -/
theorem toToken_of_line {keyStart : Option KeyStart} {r : Position} {count : Nat}
    (hleft : ∀ c ∈ left.head?, StartsToken c)
    (hkey : KeyStart.refresh (q.after (spaces count)) keyStart = .ok none)
    (hskip : skipSpace false keyAllowed false r text = (true, ⟨left, q.after (spaces count)⟩)) :
    (between keyStart tokens indents keyAllowed r text).toToken =
      (ready tokens indents true q (spaces count ++ left)).toToken := by
  rw [toToken_of_skipSpace hskip hkey]
  exact (toToken_of_skipSpace (skipSpace_spaces count hleft q) rfl).symm

/-- Where neither a directive nor the mark of a document stands, a token is read. -/
theorem step_token (hrest : s.cursor.rest = c :: rest) (hdirective : c ≠ '%')
    (hmark : isDocumentMark (c :: rest) = false) : s.step = s.readToken c rest := by
  unfold step
  rw [hrest]
  simp [hdirective, hmark]

theorem step_between {keyStart : Option KeyStart} (hdirective : c ≠ '%')
    (hmark : isDocumentMark (c :: rest) = false) :
    (between keyStart tokens indents keyAllowed p (c :: rest)).step =
      (between keyStart tokens indents keyAllowed p (c :: rest)).readToken c rest :=
  step_token rfl hdirective hmark

theorem leads_space : Leads (ready tokens indents keyAllowed p (' ' :: rest))
    (ready tokens indents keyAllowed (p.past ' ') rest) :=
  .of_toToken rfl (Nat.le_succ rest.length)

theorem leads_spaces (count : Nat) (p : Position) :
    Leads (ready tokens indents keyAllowed p (spaces count ++ rest))
      (ready tokens indents keyAllowed (p.after (spaces count)) rest) := by
  induction count generalizing p with
  | zero => exact .refl _
  | succ count ih => exact leads_space.trans (ih (p.past ' '))

/-- At a break a key may start again. -/
theorem leads_break : Leads (ready tokens indents keyAllowed p ('\n' :: rest))
    (ready tokens indents true (p.past '\n') rest) := by
  refine .of_toToken ?_ (Nat.le_succ rest.length)
  cases keyAllowed <;> rfl

theorem closeBlocks_ready (column : Nat) :
    closeBlocks (ready tokens indents keyAllowed p text) column =
      ready (tokens ++ List.replicate (indents.takeWhile (column ≤ ·)).length .blockEnd)
        (indents.drop (indents.takeWhile (column ≤ ·)).length) keyAllowed p text := by
  simp [closeBlocks, between, inFlow]

theorem closeBlocks_zero :
    closeBlocks (ready tokens indents keyAllowed p text) 0 =
      ready (tokens ++ List.replicate indents.length .blockEnd) [] keyAllowed p text := by
  have hall : indents.takeWhile (0 ≤ ·) = indents := by
    induction indents with
    | nil => rfl
    | cons indent others ih => rw [List.takeWhile_cons_of_pos (by simp), ih]
  rw [closeBlocks_ready, hall, List.drop_length]

/-- A collection that a column ends is as if it had ended before. -/
theorem closeBlocks_cons {column indent : Nat} (h : column ≤ indent) :
    closeBlocks (ready tokens (indent :: indents) keyAllowed p text) column =
      closeBlocks (ready (tokens ++ [.blockEnd]) indents keyAllowed p text) column := by
  rw [closeBlocks_ready, closeBlocks_ready, List.takeWhile_cons_of_pos (by simpa using h),
    List.length_cons, List.replicate_succ, List.drop_succ_cons, List.append_assoc]
  rfl

/-- The way to the next token where no start of a key is remembered. -/
theorem toToken_ready {allowed : Bool}
    (hskip : skipSpace false keyAllowed false p text = (allowed, ⟨rest, q⟩)) :
    (ready tokens indents keyAllowed p text).toToken =
      .ok (closeBlocks (ready tokens indents allowed q rest) (q.column + 1)) :=
  toToken_of_skipSpace hskip rfl

/-- At the end of the text all collections end. -/
theorem run_end (fuel : Nat) :
    run (fuel + 1) (ready tokens indents keyAllowed p []) =
      .ok (tokens ++ List.replicate indents.length Token.blockEnd ++ [Token.streamEnd]).toArray := by
  have hend : (ready tokens indents keyAllowed p []).toToken =
      .ok (closeBlocks (ready tokens indents keyAllowed p []) (p.column + 1)) := toToken_ready rfl
  obtain ⟨count, hcount, hclosed⟩ : ∃ count ≤ indents.length,
      closeBlocks (ready tokens indents keyAllowed p []) (p.column + 1) =
        ready (tokens ++ List.replicate count .blockEnd) (indents.drop count) keyAllowed p [] :=
    ⟨_, (List.takeWhile_prefix _).length_le, closeBlocks_ready _⟩
  have hleave : leaveBlocks (ready (tokens ++ List.replicate count .blockEnd) (indents.drop count)
      keyAllowed p []) =
      .ok (ready (tokens ++ List.replicate indents.length .blockEnd) [] keyAllowed p []) := by
    rw [leaveBlocks, closeBlocks_zero, List.append_assoc, List.replicate_append_replicate,
      List.length_drop, Nat.add_sub_cancel' hcount]
    rfl
  rw [run, hend, hclosed]
  refine Except.bind_eq_ok.2 ⟨_, rfl, ?_⟩
  refine Except.bind_eq_ok.2 ⟨_, hleave, ?_⟩
  simp [between, pure, Except.pure]

/-- A collection ends before a token that is left of it. -/
theorem leads_close {column : Nat} (hp : p.column = 0) (hrest : LeftOf column rest) :
    Leads (ready tokens (column :: indents) keyAllowed p rest)
      (ready (tokens ++ [.blockEnd]) indents keyAllowed p rest) := by
  rcases hrest with rfl | ⟨count, c, more, hcount, hc, rfl⟩
  · refine ⟨0, Nat.le_refl _, fun fuel => ?_⟩
    cases fuel with
    | zero => rfl
    | succ fuel =>
      rw [run_end, run_end, List.length_cons, List.replicate_succ]
      simp
  · refine .of_toToken ?_ (Nat.le_refl _)
    have hskip : skipSpace false keyAllowed false p (spaces count ++ c :: more) =
        (keyAllowed, ⟨c :: more, p.after (spaces count)⟩) :=
      skipSpace_spaces count (by simpa using hc) p
    have hcolumn : (p.after (spaces count)).column + 1 ≤ column := by
      rw [Position.after_spaces]
      show p.column + count + 1 ≤ column
      omega
    rw [toToken_ready hskip, toToken_ready hskip]
    exact congrArg Except.ok (closeBlocks_cons hcolumn)

end Lexer
end ApiTidy.Yaml
