import ApiTidy.Proofs.Yaml.Scalar

/-!
The marks of block collections: a hyphen before an item, and a key in front of its colon, with or
without a mark of its own. The first of them in a collection opens it.
-/
namespace ApiTidy.Yaml

/-- What opens a block collection whose parts start in a column, unless it is open. -/
def opened (indents : List Nat) (column : Nat) (token : Token) : List Token :=
  if column < inner indents then [] else [token]

/-- The block collections that are open at a part that starts in a column. -/
def within (indents : List Nat) (column : Nat) : List Nat :=
  if column < inner indents then indents else column :: indents

section Opened
variable {indents : List Nat} {column : Nat} {token : Token}

theorem opened_of_inner (h : inner indents ≤ column) : opened indents column token = [token] :=
  if_neg (Nat.not_lt.2 h)

theorem within_of_inner (h : inner indents ≤ column) : within indents column = column :: indents :=
  if_neg (Nat.not_lt.2 h)

@[simp] theorem opened_cons : opened (column :: indents) column token = [] :=
  if_pos (Nat.lt_succ_self column)

@[simp] theorem within_cons : within (column :: indents) column = column :: indents :=
  if_pos (Nat.lt_succ_self column)

end Opened

theorem of_isSimpleKey {key : String} (h : isSimpleKey key = true) :
    OneLine key.toList ∧ String.utf8Len key.toList ≤ maxSimpleKey := by
  obtain ⟨hline, hsize⟩ := Bool.and_eq_true_iff.1 h
  rw [String.utf8Len_toList]
  exact ⟨fun c hc => by simpa using (List.any_eq_false.1 (by simpa using hline)) c hc,
    of_decide_eq_true hsize⟩

theorem insertIdx_between {α : Type} (before after : List α) (a : α) :
    (before ++ after).insertIdx before.length a = before ++ a :: after := by
  induction before with
  | nil => rfl
  | cons b others ih => exact congrArg (b :: ·) ih

namespace Lexer
variable {tokens : List Token} {indents : List Nat} {keyAllowed mayStart : Bool} {indent : Nat}
  {p q : Position} {text rest : List Char} {c : Char} {style : ScalarStyle}

theorem openBlock_between (keyStart : Option KeyStart) (before after : List Token) (column : Nat)
    (token : Token) :
    openBlock (between keyStart (before ++ after) indents keyAllowed p text) column before.length
        token =
      between keyStart (before ++ opened indents column token ++ after) (within indents column)
        keyAllowed p text := by
  have hinner : (between keyStart (before ++ after) indents keyAllowed p text).innerColumn =
    inner indents := rfl
  have hflow : (between keyStart (before ++ after) indents keyAllowed p text).inFlow = false := rfl
  unfold openBlock opened within
  rw [hinner, hflow]
  split
  next h => simp_all
  next h =>
    have hcolumn : ¬ column < inner indents := by simpa using h
    simp [hcolumn, between, insertIdx_between]

/-- A collection that opens at the next token. -/
theorem openBlock_ready (tokens : List Token) (column : Nat) (token : Token) :
    openBlock (ready tokens indents keyAllowed p text) column tokens.length token =
      ready (tokens ++ opened indents column token) (within indents column) keyAllowed p text := by
  have hopen :
      openBlock (ready (tokens ++ []) indents keyAllowed p text) column tokens.length token =
        ready (tokens ++ opened indents column token ++ []) (within indents column) keyAllowed p
          text :=
    openBlock_between none tokens [] column token
  rwa [List.append_nil, List.append_nil] at hopen

theorem pushIndicator_between (keyStart : Option KeyStart) (token : Token) :
    pushIndicator (between keyStart tokens indents keyAllowed p (c :: rest)) token 1 mayStart =
      between keyStart (tokens ++ [token]) indents mayStart (p.past c) rest :=
  push_between keyStart token mayStart

theorem readBlockEntry_ready (c : Char) :
    (ready tokens indents true p (c :: rest)).readBlockEntry =
      .ok (ready (tokens ++ opened indents p.column .blockSequenceStart ++ [.blockEntry])
        (within indents p.column) true (p.past c) rest) := by
  have hread : (ready tokens indents true p (c :: rest)).readBlockEntry = (do
      let s ← (openBlock (ready tokens indents true p (c :: rest)) p.column tokens.length
        .blockSequenceStart).forgetKey
      return s.pushIndicator .blockEntry 1 true) := rfl
  rw [hread, openBlock_ready]
  exact congrArg Except.ok (pushIndicator_between none .blockEntry)

theorem readKey_ready (c : Char) :
    (ready tokens indents true p (c :: rest)).readKey =
      .ok (ready (tokens ++ opened indents p.column .blockMappingStart ++ [.key])
        (within indents p.column) true (p.past c) rest) := by
  have hread : (ready tokens indents true p (c :: rest)).readKey = (do
      let s ← (openBlock (ready tokens indents true p (c :: rest)) p.column tokens.length
        .blockMappingStart).forgetKey
      return s.pushIndicator .key 1 (!s.inFlow)) := rfl
  rw [hread, openBlock_ready]
  exact congrArg Except.ok (pushIndicator_between none .key)

/-- The colon after a key that has its own mark. -/
theorem readValue_ready (c : Char) :
    (ready tokens indents true p (c :: rest)).readValue =
      .ok (ready (tokens ++ opened indents p.column .blockMappingStart ++ [.value])
        (within indents p.column) true (p.past c) rest) := by
  have hread : (ready tokens indents true p (c :: rest)).readValue =
      let s := openBlock (ready tokens indents true p (c :: rest)) p.column tokens.length
        .blockMappingStart
      .ok (s.pushIndicator .value 1 (!s.inFlow)) := rfl
  rw [hread, openBlock_ready]
  exact congrArg Except.ok (pushIndicator_between none .value)

/-- The colon after a key without a mark puts the mark before it, and opens the mapping if it is not
open. -/
theorem readValue_between {start : KeyStart} (hindex : start.index = tokens.length) (token : Token)
    (c : Char) :
    (between (some start) (tokens ++ [token]) indents keyAllowed p (c :: rest)).readValue =
      .ok (ready (tokens ++ opened indents start.position.column .blockMappingStart ++
          [.key, token, .value]) (within indents start.position.column) false (p.past c) rest) := by
  have hread :
      (between (some start) (tokens ++ [token]) indents keyAllowed p (c :: rest)).readValue =
      .ok ((openBlock { between none (tokens ++ [token]) indents keyAllowed p (c :: rest) with
          tokens := (tokens ++ [token]).toArray.insertIdxIfInBounds start.index .key }
        start.position.column start.index .blockMappingStart).pushIndicator .value 1 false) := rfl
  have hmarked : ({ between none (tokens ++ [token]) indents keyAllowed p (c :: rest) with
          tokens := (tokens ++ [token]).toArray.insertIdxIfInBounds start.index .key } : Lexer) =
      ready (tokens ++ [.key, token]) indents keyAllowed p (c :: rest) := by
    rw [hindex, List.insertIdxIfInBounds_toArray, insertIdx_between]
    rfl
  rw [hread, hmarked, hindex, openBlock_between, pushIndicator_between]
  simp

/-- A mark before a blank, as a state finds it at its next token. -/
theorem leads_mark {next : Lexer} (hc : StartsToken c) (hdirective : c ≠ '%')
    (hmark : isDocumentMark (c :: rest) = false) (hinner : inner indents ≤ p.column + 1)
    (hread : (ready tokens indents keyAllowed p (c :: rest)).readToken c rest = .ok next)
    (hrest : next.cursor.rest = rest) :
    Leads (ready tokens indents keyAllowed p (c :: rest)) next :=
  .of_step (toToken_of_word hc hinner rfl) (List.cons_ne_nil c rest)
    ((step_between hdirective hmark).trans hread) rfl (by rw [hrest]; exact Nat.lt_succ_self _)

/-- A hyphen before an item. -/
theorem leads_hyphen (hinner : inner indents ≤ p.column + 1) :
    Leads (ready tokens indents true p ('-' :: ' ' :: rest))
      (ready (tokens ++ opened indents p.column .blockSequenceStart ++ [.blockEntry])
        (within indents p.column) true (p.after ['-', ' ']) rest) := by
  have hread : (ready tokens indents true p ('-' :: ' ' :: rest)).readToken '-' (' ' :: rest) = _ :=
    readBlockEntry_ready '-'
  exact (leads_mark (by decide) (by decide) rfl hinner hread rfl).trans leads_space

/-- The mark before a key. -/
theorem leads_keyMark (hinner : inner indents ≤ p.column + 1) :
    Leads (ready tokens indents true p ('?' :: ' ' :: rest))
      (ready (tokens ++ opened indents p.column .blockMappingStart ++ [.key])
        (within indents p.column) true (p.after ['?', ' ']) rest) := by
  have hread : (ready tokens indents true p ('?' :: ' ' :: rest)).readToken '?' (' ' :: rest) = _ :=
    readKey_ready '?'
  exact (leads_mark (by decide) (by decide) rfl hinner hread rfl).trans leads_space

/-- The colon on its own line after a key that has a mark. -/
theorem leads_colon :
    Leads (ready tokens (p.column :: indents) true p (':' :: ' ' :: rest))
      (ready (tokens ++ [.value]) (p.column :: indents) true (p.after [':', ' ']) rest) := by
  have hread : (ready tokens (p.column :: indents) true p (':' :: ' ' :: rest)).readToken ':'
      (' ' :: rest) = _ := readValue_ready ':'
  rw [opened_cons, within_cons, List.append_nil] at hread
  exact (leads_mark (by decide) (by decide) rfl (by simp) hread rfl).trans leads_space

/-- A key without a mark and its colon. The key is short enough that its start is still remembered
at the colon. -/
theorem leads_simpleKey (hstyle : style.Holds text) (hline : OneLine text)
    (hsize : String.utf8Len text ≤ maxSimpleKey) (hindent : 0 < indent)
    (hinner : inner indents ≤ p.column + 1) (hrest : endsWord rest = true) :
    Leads (ready tokens indents true p (styled indent text style ++ ':' :: rest))
      (ready (tokens ++ opened indents p.column .blockMappingStart ++
          [.key, .scalar style (String.ofList text), .value]) (within indents p.column) false
        (p.after (styled indent text style ++ [':'])) rest) := by
  obtain ⟨c, more, hstyled, hc⟩ := startsToken_styled indent hstyle
  have hafter := Position.after_oneLine (isBreak_of_mem_styled indent hstyle hline) p
  have hoctets : String.utf8Len (styled indent text style) ≤ KeyStart.maxLength :=
    Nat.le_trans (utf8Len_styled_le indent hstyle hline) (by
      rw [maxSimpleKey] at hsize
      rw [KeyStart.maxLength]
      omega)
  have hkept : KeyStart.refresh (p.after (styled indent text style)) (keyAt tokens indents true p) =
      .ok (keyAt tokens indents true p) := by
    rw [hafter]
    exact refresh_keyAt_near rfl (Nat.add_le_add_left hoctets p.octet)
  have hkey : Leads (ready tokens indents true p (styled indent text style ++ ':' :: rest))
      (between (keyAt tokens indents true p) (tokens ++ [.scalar style (String.ofList text)]) indents
        false (p.after (styled indent text style)) (':' :: rest)) := by
    have hfirst : (ready tokens indents true p (styled indent text style ++ ':' :: rest)).toToken =
        .ok (ready tokens indents true p (styled indent text style ++ ':' :: rest)) := by
      rw [hstyled, List.cons_append]
      exact toToken_of_word hc hinner rfl
    refine .of_step hfirst ?_ (step_key hstyle hline hindent hinner hrest) rfl ?_
    · rw [hstyled]
      exact List.cons_ne_nil _ _
    · show (':' :: rest).length < (styled indent text style ++ ':' :: rest).length
      rw [hstyled, List.length_append, List.length_cons (a := c)]
      omega
  have hcolon : StartsToken ':' := (by decide)
  refine hkey.trans (.of_step (toToken_of_word hcolon ?_ hkept) (List.cons_ne_nil _ _)
    ((step_between (by decide) rfl).trans ?_) rfl (Nat.lt_succ_self _))
  · rw [hafter]
    show inner indents ≤ p.column + (styled indent text style).length + 1
    omega
  · have hread : ∀ s : Lexer, s.readToken ':' rest = s.readValue := by
      intro s
      show (if s.inFlow || endsWord rest then s.readValue else s.readPlain) = _
      rw [hrest, Bool.or_true, if_pos rfl]
    have hstart : keyAt tokens indents true p =
      some ⟨indents.head? = some p.column, tokens.length, p⟩ := rfl
    rw [hread, hstart, readValue_between rfl, Position.after_append]
    rfl

/-- A state between the brackets of a flow collection. -/
def inBrackets (keyStart : Option KeyStart) (tokens : List Token) (indents : List Nat)
    (p : Position) (text : List Char) : Lexer :=
  ⟨⟨text, p⟩, tokens.toArray, indents, none, [keyStart], true⟩

theorem openFlow_ready (token : Token) :
    (ready tokens indents keyAllowed p (c :: rest)).openFlow token =
      .ok (inBrackets (keyAt tokens indents keyAllowed p) (tokens ++ [token]) indents (p.past c)
        rest) := by
  rw [openFlow, rememberKey_ready]
  refine Except.bind_eq_ok.2 ⟨_, rfl, ?_⟩
  rw [pushIndicator_between]
  rfl

theorem toToken_inBrackets {keyStart : Option KeyStart} (hc : StartsToken c)
    (hkey : KeyStart.refresh p keyStart = .ok keyStart) :
    (inBrackets keyStart tokens indents p (c :: rest)).toToken =
      .ok (inBrackets keyStart tokens indents p (c :: rest)) := by
  have hskip : skipSpace true true false p (c :: rest) = (true, ⟨c :: rest, p⟩) :=
    skipSpace_of_word hc
  have houter : [keyStart].mapM (KeyStart.refresh p) = .ok [keyStart] := by
    rw [List.mapM_cons, hkey]
    rfl
  have hkeys : refreshKeys (inBrackets keyStart tokens indents p (c :: rest)) =
      .ok (inBrackets keyStart tokens indents p (c :: rest)) :=
    Except.bind_eq_ok.2 ⟨none, rfl, Except.bind_eq_ok.2 ⟨[keyStart], houter, rfl⟩⟩
  rw [toToken_eq (s := inBrackets keyStart tokens indents p (c :: rest)) hskip]
  exact (congrArg (Except.map _) hkeys).trans rfl

theorem closeFlow_inBrackets (keyStart : Option KeyStart) (token : Token) :
    (inBrackets keyStart tokens indents p (c :: rest)).closeFlow token =
      .ok (between keyStart (tokens ++ [token]) indents false (p.past c) rest) := by
  refine Except.bind_eq_ok.2 ⟨inBrackets keyStart tokens indents p (c :: rest), rfl, ?_⟩
  simp [inBrackets, between, pushIndicator, push, Cursor.forward, pure, Except.pure]

/-- An empty collection, whose brackets stand side by side on a line. -/
theorem leads_brackets {a b : Char} {first second : Token} (ha : StartsToken a ∧ a ≠ '%')
    (hb : StartsToken b ∧ b ≠ '%') (hmarks : isDocumentMark (a :: b :: '\n' :: rest) = false ∧
      isDocumentMark (b :: '\n' :: rest) = false)
    (hopen : ∀ s : Lexer, s.readToken a (b :: '\n' :: rest) = s.openFlow first)
    (hclose : ∀ s : Lexer, s.readToken b ('\n' :: rest) = s.closeFlow second)
    (hinner : inner indents ≤ p.column) (hrest : LeftOf (inner indents) rest) :
    Leads (ready tokens indents keyAllowed p (a :: b :: '\n' :: rest))
      (ready (tokens ++ [first, second]) indents true (p.after [a, b, '\n']) rest) := by
  obtain ⟨count, left, rfl, hleft⟩ := hrest.exists_spaces
  have hfirst : (ready tokens indents keyAllowed p
      (a :: b :: '\n' :: (spaces count ++ left))).toToken = _ :=
    toToken_of_word ha.1 (Nat.le_succ_of_le hinner) rfl
  have hopened := (step_between ha.2 hmarks.1).trans ((hopen (ready tokens indents keyAllowed p
    (a :: b :: '\n' :: (spaces count ++ left)))).trans (openFlow_ready first))
  refine (Leads.of_step hfirst (List.cons_ne_nil _ _) hopened rfl (Nat.lt_succ_self _)).trans ?_
  have hkept : KeyStart.refresh (p.past a) (keyAt tokens indents keyAllowed p) =
      .ok (keyAt tokens indents keyAllowed p) := by
    have hsize := a.utf8Size_le_four
    rw [Position.past_of_not_break ha.1.2.1]
    refine refresh_keyAt_near rfl ?_
    show p.octet + a.utf8Size ≤ p.octet + 1024
    omega
  have hsecond :
    (inBrackets (keyAt tokens indents keyAllowed p) (tokens ++ [first]) indents (p.past a)
      (b :: '\n' :: (spaces count ++ left))).toToken = _ := toToken_inBrackets hb.1 hkept
  have hclosed := (step_token rfl hb.2 hmarks.2).trans ((hclose (inBrackets
    (keyAt tokens indents keyAllowed p) (tokens ++ [first]) indents (p.past a)
    (b :: '\n' :: (spaces count ++ left)))).trans (closeFlow_inBrackets _ second))
  refine .of_step hsecond (List.cons_ne_nil _ _) hclosed ?_ ?_
  · rw [List.append_assoc]
    refine toToken_of_line hleft (refresh_keyAt hinner ?_) (skipSpace_spaces count hleft _)
    exact line_lt_next [a, b] count p
  · show (spaces count ++ left).length < (b :: '\n' :: (spaces count ++ left)).length
    exact Nat.lt_succ_of_lt (Nat.lt_succ_self _)

end Lexer
end ApiTidy.Yaml
