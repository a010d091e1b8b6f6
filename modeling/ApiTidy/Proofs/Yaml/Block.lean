import ApiTidy.Proofs.Except
import ApiTidy.Proofs.Yaml.Plain
import ApiTidy.Yaml.Token.Block

/-!
A literal block is read back. Its lines are read one by one, each with the empty lines after it; the
header tells how far they are indented and what to do with the breaks at the end.
-/
namespace ApiTidy.Yaml

/-- How the header says that a text ends. -/
def chompingOf (text : List Char) : Chomping :=
  match text.reverse with
  | [] => .strip
  | [last] => if isBreak last then .keep else .strip
  | last :: before :: _ =>
    if !isBreak last then .strip else if isBreak before then .keep else .clip

/-- The indentation that the header gives: two columns, if the first line does not show it. -/
def indentationOf (text : List Char) : Option Nat :=
  if text.head?.any fun c => c = ' ' || isBreak c then some 2 else none

/-- The indicators of a literal block, after its mark. -/
def indicators (text : List Char) : List Char :=
  (if (indentationOf text).isSome then ['2'] else []) ++
    match chompingOf text with
    | .strip => ['-']
    | .keep => ['+']
    | .clip => []

theorem literalHeader_eq (text : List Char) : literalHeader text = '|' :: indicators text := by
  unfold literalHeader indicators chompingOf indentationOf
  rw [List.cons_append]
  congr 2
  · split <;> rfl
  · rcases text.reverse with _ | ⟨last, _ | ⟨before, others⟩⟩
    · rfl
    · dsimp only
      split <;> rfl
    · dsimp only
      split
      · rfl
      · split <;> rfl

theorem styled_literal (indent : Nat) (text : List Char) :
    styled indent text .literal =
      '|' :: (indicators text ++ '\n' :: literalBody indent true text) := by
  rw [styled, literalHeader_eq]
  rfl

/-- The header is read back. -/
theorem blockHeader_indicators (text more : List Char) :
    blockHeader (indicators text ++ '\n' :: more) =
      .ok (⟨chompingOf text, indentationOf text⟩, '\n' :: more) := by
  have hindentation : indentationOf text = some 2 ∨ indentationOf text = none := by
    unfold indentationOf
    split
    · exact .inl rfl
    · exact .inr rfl
  unfold indicators
  rcases hindentation with h | h <;> rw [h] <;> cases chompingOf text <;> rfl

/-- After the header of a literal block its lines are read. -/
theorem blockScalar_literal {outer : Option Nat} {indent : Nat} {text more : List Char} {p : Position}
    {found : Margin} {lines : BlockLines} {cursor : Cursor}
    (hmargin : margin ((indentationOf text).map (outer.getD 0 + ·)) 0
      ((p.after ('|' :: indicators text)).past '\n') more = .ok found)
    (hindent : ((indentationOf text).map (outer.getD 0 + ·)).getD
      (max found.widest (max (outer.elim 0 (· + 1)) 1)) = indent)
    (hlines : blockLinesFrom false indent found.cursor.rest.length ⟨[], none, false, found.breaks⟩
      found.cursor = .ok (lines, cursor)) :
    blockScalar false outer ⟨'|' :: (indicators text ++ '\n' :: more), p⟩ =
      .ok ((lines.tail (chompingOf text) ++ lines.done).reverse, cursor) := by
  have hlength : (indicators text ++ '\n' :: more).length - ('\n' :: more).length =
      (indicators text).length := by simp
  have hheader : (⟨indicators text ++ '\n' :: more, p.past '|'⟩ : Cursor).forward
      ((indicators text ++ '\n' :: more).length - ('\n' :: more).length) =
        ⟨'\n' :: more, (p.past '|').after (indicators text)⟩ := by
    rw [hlength, Cursor.forward_append]
  refine Except.bind_eq_ok.2 ⟨_, blockHeader_indicators text more, ?_⟩
  refine Except.bind_eq_ok.2 ⟨⟨more, (p.after ('|' :: indicators text)).past '\n'⟩, ?_, ?_⟩
  · exact congrArg (endOfLine .badBlockHeader) hheader
  · refine Except.bind_eq_ok.2 ⟨found, hmargin, ?_⟩
    rw [← hindent] at hlines
    exact Except.bind_eq_ok.2 ⟨(lines, cursor), hlines, rfl⟩

section margin
variable {limit : Option Nat}

theorem margin_end (limit : Option Nat) (widest : Nat) (p : Position) :
    margin limit widest p [] = .ok ⟨[], max widest p.column, ⟨[], p⟩⟩ := rfl

/-- The indentation of a line up to its first character, which may be a space at the limit. -/
theorem margin_line {c : Char} (rest : List Char) (count widest : Nat) (p : Position)
    (hlimit : ∀ column ∈ limit, p.column + count ≤ column) (hbreak : isBreak c = false)
    (htab : c ≠ '\t') (hspace : c = ' ' → limit = some (p.column + count)) :
    margin limit widest p (spaces count ++ c :: rest) =
      .ok ⟨[], max widest (p.column + count), ⟨c :: rest, p.after (spaces count)⟩⟩ := by
  induction count generalizing p widest with
  | zero =>
    have hstop : (c = ' ' && limit.all (p.column < ·)) = false := by
      rw [Bool.and_eq_false_iff]
      by_cases hc : c = ' '
      · exact .inr (by simp [hspace hc])
      · exact .inl (decide_eq_false hc)
    show margin limit widest p (c :: rest) = _
    rw [margin, hstop, hbreak]
    simp [htab, spaces]
  | succ count ih =>
    have hinside : limit.all (p.column < ·) = true := by
      cases limit with
      | none => rfl
      | some column =>
        have := hlimit column rfl
        simp
        omega
    have hpast : (p.past ' ').column = p.column + 1 := rfl
    have hspaces : spaces (count + 1) = ' ' :: spaces count := rfl
    have hcolumn : p.column + (count + 1) = p.column + 1 + count := by omega
    have hlater := ih (max widest p.column) (p.past ' ')
      (fun column hmem => by rw [hpast, ← hcolumn]; exact hlimit column hmem)
      (fun hc => by rw [hpast, ← hcolumn]; exact hspace hc)
    rw [hspaces, List.cons_append, margin]
    simp only [hinside, decide_true, Bool.and_self, if_true, hlater, hpast, Except.ok.injEq,
      Margin.mk.injEq, true_and]
    exact ⟨by omega, rfl⟩

/-- Empty lines are kept as their breaks. -/
theorem margin_breaks (limit : Option Nat) {breaks : List Char}
    (h : ∀ c ∈ breaks, isBreak c = true) (rest : List Char) (widest : Nat) (p : Position) :
    ∃ wider, margin limit widest p (breaks ++ rest) =
      (margin limit wider (p.after breaks) rest).map fun found =>
        { found with breaks := breaks ++ found.breaks } := by
  induction breaks generalizing p widest with
  | nil =>
    refine ⟨widest, ?_⟩
    cases hmargin : margin limit widest p rest <;> simp [hmargin, Except.map]
  | cons c others ih =>
    obtain ⟨hc, hothers⟩ := List.forall_mem_cons.1 h
    have hspace : c ≠ ' ' := by rintro rfl; exact absurd hc (by decide)
    have htab : c ≠ '\t' := by rintro rfl; exact absurd hc (by decide)
    obtain ⟨wider, hlater⟩ := ih hothers (max widest p.column) (p.past c)
    refine ⟨wider, ?_⟩
    rw [List.cons_append, margin, hlater]
    simp only [hspace, htab, hc, decide_false, Bool.false_and, Bool.false_eq_true, if_false, if_true,
      Position.after_cons]
    cases margin limit wider ((p.past c).after others) rest <;> rfl

end margin

theorem literalBody_breaks (indent : Nat) {breaks : List Char} (h : ∀ c ∈ breaks, isBreak c = true)
    (tail : List Char) :
    literalBody indent true (breaks ++ tail) = breaks ++ literalBody indent true tail := by
  induction breaks with
  | nil => rfl
  | cons c others ih =>
    obtain ⟨hc, hothers⟩ := List.forall_mem_cons.1 h
    rw [List.cons_append, literalBody, if_pos hc, ih hothers, List.cons_append]

theorem literalBody_line (indent : Nat) {line : List Char} (h : OneLine line) (tail : List Char) :
    literalBody indent false (line ++ tail) = line ++ literalBody indent false tail := by
  induction line with
  | nil => rfl
  | cons c others ih =>
    obtain ⟨hc, hothers⟩ := List.forall_mem_cons.1 h
    rw [List.cons_append, literalBody, hc, if_neg Bool.false_ne_true, if_neg Bool.false_ne_true,
      ih hothers]
    rfl

theorem literalBody_start (indent : Nat) {c : Char} (h : isBreak c = false) (others : List Char) :
    literalBody indent true (c :: others) =
      spaces indent ++ literalBody indent false (c :: others) := by
  rw [literalBody, literalBody, h, if_neg Bool.false_ne_true, if_pos rfl]
  rfl

/-- After the lines of a block the next line starts. -/
theorem column_after_literalBody (indent : Nat) (text : List Char) {atLine : Bool} {p : Position}
    (hp : atLine = true → p.column = 0) : (p.after (literalBody indent atLine text)).column = 0 := by
  induction text generalizing atLine p with
  | nil =>
    rw [literalBody]
    split
    next h => exact hp h
    next => rfl
  | cons c others ih =>
    rw [literalBody]
    split
    next hc => exact ih fun _ => by rw [Position.past_of_break hc]
    next =>
      rw [Position.after_append]
      exact ih fun h => nomatch h

/-- A text that does not start with a break. -/
def StartsLine (text : List Char) : Prop := ∀ c ∈ text.head?, isBreak c = false

/-- A text is some empty lines and what follows them. -/
theorem exists_breaks (text : List Char) :
    ∃ breaks tail, text = breaks ++ tail ∧ (∀ c ∈ breaks, isBreak c = true) ∧ StartsLine tail := by
  induction text with
  | nil => exact ⟨[], [], rfl, by simp, by simp [StartsLine]⟩
  | cons c others ih =>
    by_cases hc : isBreak c = true
    · obtain ⟨breaks, tail, rfl, hbreaks, htail⟩ := ih
      exact ⟨c :: breaks, tail, rfl, List.forall_mem_cons.2 ⟨hc, hbreaks⟩, htail⟩
    · exact ⟨[], c :: others, rfl, by simp, by simpa [StartsLine] using hc⟩

/-- A text is a line and nothing more, or a line with its break, empty lines and what follows. -/
theorem exists_line {c : Char} (hc : isBreak c = false) (others : List Char) :
    OneLine (c :: others) ∨ ∃ line b breaks later,
      c :: others = c :: line ++ b :: (breaks ++ later) ∧ OneLine (c :: line) ∧
        (∀ d ∈ b :: breaks, isBreak d = true) ∧ StartsLine later := by
  induction others generalizing c with
  | nil => exact .inl (List.forall_mem_cons.2 ⟨hc, by simp⟩)
  | cons d more ih =>
    by_cases hd : isBreak d = true
    · obtain ⟨breaks, later, rfl, hbreaks, hlater⟩ := exists_breaks more
      exact .inr ⟨[], d, breaks, later, rfl, List.forall_mem_cons.2 ⟨hc, by simp⟩,
        List.forall_mem_cons.2 ⟨hd, hbreaks⟩, hlater⟩
    · rw [Bool.not_eq_true] at hd
      rcases ih hd with hline | ⟨line, b, breaks, later, hsplit, hline, hrest⟩
      · exact .inl (List.forall_mem_cons.2 ⟨hc, hline⟩)
      · exact .inr ⟨d :: line, b, breaks, later, by rw [hsplit]; rfl,
          List.forall_mem_cons.2 ⟨hc, hline⟩, hrest⟩

/-- What follows a block: its first token stands left of the block. -/
structure Ends (indent count : Nat) (left : List Char) : Prop where
  count_lt : count < indent
  starts : ∀ c ∈ left.head?, StartsToken c
  count_eq : left = [] → count = 0

theorem LeftOf.ends {indent : Nat} {rest : List Char} (h : LeftOf indent rest)
    (hindent : 0 < indent) :
    ∃ count left, rest = spaces count ++ left ∧ Ends indent count left := by
  rcases h with rfl | ⟨count, c, more, hcount, hc, rfl⟩
  · exact ⟨0, [], rfl, hindent, by simp, fun _ => rfl⟩
  · exact ⟨count, c :: more, rfl, hcount, by simpa using hc, by simp⟩

/-- Where the margin before a text ends: at its first line, or else at what follows the block. -/
def blockCursor (indent count : Nat) (left : List Char) : List Char → Position → Cursor
  | [], p => ⟨left, p.after (spaces count)⟩
  | c :: others, p =>
    ⟨literalBody indent false (c :: others) ++ (spaces count ++ left), p.after (spaces indent)⟩

section Lines
variable {indent count : Nat} {left : List Char}

theorem length_blockCursor_le (indent count : Nat) (left text : List Char) (p : Position) :
    (blockCursor indent count left text p).rest.length ≤
      (literalBody indent true text ++ (spaces count ++ left)).length := by
  cases text with
  | nil => simp [blockCursor, literalBody]
  | cons c others =>
    simp only [blockCursor, literalBody]
    split <;> simp

theorem column_after_breaks {breaks : List Char} (h : ∀ c ∈ breaks, isBreak c = true) {p : Position}
    (hp : p.column = 0) : (p.after breaks).column = 0 := by
  induction breaks generalizing p with
  | nil => exact hp
  | cons c others ih =>
    obtain ⟨hc, hothers⟩ := List.forall_mem_cons.1 h
    exact ih hothers (by rw [Position.past_of_break hc])

/-- The margin takes the empty lines and the indentation of the next one. -/
theorem margin_literalBody (hends : Ends indent count left) (breaks tail : List Char)
    (hbreaks : ∀ c ∈ breaks, isBreak c = true) (htail : StartsLine tail) (htabs : '\t' ∉ tail)
    {p : Position} (hp : p.column = 0) (widest : Nat) :
    ∃ wider, margin (some indent) widest p
        (literalBody indent true (breaks ++ tail) ++ (spaces count ++ left)) =
      .ok ⟨breaks, wider, blockCursor indent count left tail (p.after breaks)⟩ := by
  obtain ⟨wider, hskip⟩ := margin_breaks (some indent) hbreaks
    (literalBody indent true tail ++ (spaces count ++ left)) widest p
  have hcolumn := column_after_breaks hbreaks hp
  have hline : ∃ wider', margin (some indent) wider (p.after breaks)
      (literalBody indent true tail ++ (spaces count ++ left)) =
        .ok ⟨[], wider', blockCursor indent count left tail (p.after breaks)⟩ := by
    cases tail with
    | nil =>
      show ∃ wider', margin _ _ _ (spaces count ++ left) = _
      cases left with
      | nil =>
        rw [hends.count_eq rfl]
        exact ⟨_, margin_end _ _ _⟩
      | cons c more =>
        obtain ⟨hblank, hbreak, -⟩ := hends.starts c rfl
        obtain ⟨hspace, htab⟩ : c ≠ ' ' ∧ c ≠ '\t' := by simpa [isBlank] using hblank
        have hinside : ∀ column ∈ some indent, (p.after breaks).column + count ≤ column := by
          intro column hmem
          obtain rfl := Option.some.inj hmem
          have := hends.count_lt
          omega
        exact ⟨_, margin_line more count wider _ hinside hbreak htab fun hc => absurd hc hspace⟩
    | cons c others =>
      have hbreak : isBreak c = false := htail c rfl
      have htab : c ≠ '\t' := fun hc => htabs (hc ▸ List.mem_cons_self)
      rw [literalBody_start indent hbreak, List.append_assoc]
      have hbody : literalBody indent false (c :: others) ++ (spaces count ++ left) =
          c :: (literalBody indent false others ++ (spaces count ++ left)) := by
        rw [literalBody, hbreak]
        rfl
      have hinside : ∀ column ∈ some indent, (p.after breaks).column + indent ≤ column := by
        intro column hmem
        obtain rfl := Option.some.inj hmem
        omega
      rw [hbody, blockCursor, hbody]
      exact ⟨_, margin_line _ indent wider _ hinside hbreak htab fun _ => by
        rw [hcolumn, Nat.zero_add]⟩
  obtain ⟨wider', hmargin⟩ := hline
  refine ⟨wider', ?_⟩
  rw [literalBody_breaks indent hbreaks, List.append_assoc, hskip, hmargin]
  simp [Except.map]

/-- All that was read of a block, in reverse order. -/
def BlockLines.whole (lines : BlockLines) : List Char :=
  lines.emptyLines.reverse ++ lines.lastBreak.toList ++ lines.done

theorem BlockLines.joined_literal (lines : BlockLines) (c : Char) :
    lines.joined false c = lines.whole := by
  simp [joined, whole]

/-- One line with its break and the empty lines after it. -/
theorem blockLinesFrom_line (fuel : Nat) (lines : BlockLines) {c b : Char}
    {line more : List Char} {p q : Position} {found : Margin}
    (hline : OneLine (c :: line)) (hb : isBreak b = true) (hcolumn : p.column = indent)
    (hq : (p.after (c :: line)).past b = q) (hmargin : margin (some indent) 0 q more = .ok found) :
    blockLinesFrom false indent (fuel + 1) lines ⟨c :: (line ++ b :: more), p⟩ =
      blockLinesFrom false indent fuel
        ⟨(c :: line).reverse ++ lines.whole, some b, isBlank c, found.breaks⟩ found.cursor := by
  have htake : (c :: (line ++ b :: more)).takeWhile (!isBreak ·) = c :: line := by
    rw [← List.cons_append, List.takeWhile_append_of_pos fun d hd => by simp [hline d hd],
      List.takeWhile_cons_of_neg (by simp [hb]), List.append_nil]
  have hpast : (⟨c :: (line ++ b :: more), p⟩ : Cursor).past (!isBreak ·) =
      ⟨b :: more, p.after (c :: line)⟩ := by
    rw [Cursor.past, htake]
    exact Cursor.forward_append (c :: line) (b :: more) p
  rw [blockLinesFrom]
  simp only [Cursor.column, hcolumn, ne_eq, not_true_eq_false, if_false, hpast, List.head?_cons,
    Option.elim_some, List.tail_cons, hq, hmargin, htake, BlockLines.joined_literal]

theorem chompingOf_append (before : List Char) {text : List Char} (htext : text ≠ [])
    (h : StartsLine text) : chompingOf (before ++ text) = chompingOf text := by
  obtain ⟨c, others, rfl⟩ := List.exists_cons_of_ne_nil htext
  have hc : isBreak c = false := h c rfl
  unfold chompingOf
  rw [List.reverse_append, List.reverse_cons]
  rcases others.reverse with _ | ⟨last, _ | ⟨next, more⟩⟩
  · cases before.reverse <;> simp [hc]
  · rfl
  · rfl

theorem chompingOf_line {line : List Char} (hne : line ≠ []) (h : OneLine line) :
    chompingOf line = .strip := by
  have hlast := h _ (List.getLast_mem hne)
  rw [← List.dropLast_concat_getLast hne, chompingOf, List.reverse_append]
  cases line.dropLast.reverse <;> simp [hlast]

/-- A text that ends with breaks after a line keeps all of them; one is what every line has. -/
theorem chompingOf_breaks {line breaks : List Char} {b : Char} (hne : line ≠ [])
    (hline : OneLine line) (hbreaks : ∀ c ∈ b :: breaks, isBreak c = true) :
    chompingOf (line ++ b :: breaks) = if breaks = [] then .clip else .keep := by
  obtain ⟨hb, hothers⟩ := List.forall_mem_cons.1 hbreaks
  have hend := hline _ (List.getLast_mem hne)
  have hreverse : line.reverse = line.getLast hne :: line.dropLast.reverse := by
    have hsame := congrArg List.reverse (List.dropLast_concat_getLast hne)
    rw [List.reverse_append] at hsame
    exact hsame.symm
  unfold chompingOf
  rw [List.reverse_append, List.reverse_cons, hreverse]
  rcases hlast : breaks.reverse with _ | ⟨last, more⟩
  · have hnone : breaks = [] := by simpa using hlast
    simp [hnone, hb, hend]
  · have hsome : breaks ≠ [] := by
      rintro rfl
      cases hlast
    have hbreak : ∀ c ∈ last :: more, isBreak c = true := by
      intro c hc
      rw [← hlast] at hc
      exact hothers c (List.mem_reverse.1 hc)
    obtain ⟨hl, hmore⟩ := List.forall_mem_cons.1 hbreak
    cases more with
    | nil => simp [hsome, hl, hb]
    | cons next others => simp [hsome, hl, hmore next List.mem_cons_self]

theorem chompingOf_all_breaks {breaks : List Char} (hne : breaks ≠ [])
    (h : ∀ c ∈ breaks, isBreak c = true) : chompingOf breaks = .keep := by
  unfold chompingOf
  have hreverse : ∀ c ∈ breaks.reverse, isBreak c = true :=
    fun c hc => h c (List.mem_reverse.1 hc)
  rcases hlast : breaks.reverse with _ | ⟨last, _ | ⟨before, others⟩⟩
  · exact absurd (List.reverse_eq_nil_iff.1 hlast) hne
  · rw [hlast] at hreverse
    simp [hreverse last List.mem_cons_self]
  · rw [hlast] at hreverse
    simp [hreverse last (by simp), hreverse before (by simp)]

/-- What stands left of a block does not belong to it. -/
theorem blockLinesFrom_left (hends : Ends indent count left) (fuel : Nat) (lines : BlockLines)
    {p : Position} (hp : p.column = 0) :
    blockLinesFrom false indent fuel lines ⟨left, p.after (spaces count)⟩ =
      .ok (lines, ⟨left, p.after (spaces count)⟩) := by
  have hcolumn : (p.after (spaces count)).column ≠ indent := by
    have := hends.count_lt
    rw [Position.after_spaces]
    show p.column + count ≠ indent
    omega
  cases fuel with
  | zero => rfl
  | succ fuel =>
    cases left with
    | nil => rfl
    | cons c more =>
      rw [blockLinesFrom]
      exact if_pos hcolumn

/-- What was read of a block after some lines: nothing more, or a text whose last breaks are dropped
as the header says. -/
def BlockLines.Holds (found lines : BlockLines) (text : List Char) : Prop :=
  if text = [] then found = lines
  else found.tail (chompingOf text) ++ found.done = text.reverse ++ lines.whole

theorem BlockLines.Holds.line {found lines : BlockLines} {c b : Char}
    {line breaks later : List Char} {afterBlank : Bool} (hline : OneLine (c :: line))
    (hbreaks : ∀ d ∈ b :: breaks, isBreak d = true) (hlater : StartsLine later)
    (h : found.Holds ⟨(c :: line).reverse ++ lines.whole, some b, afterBlank, breaks⟩ later) :
    found.Holds lines (c :: line ++ b :: (breaks ++ later)) := by
  unfold Holds at h ⊢
  rw [if_neg (by simp)]
  split at h
  next hend =>
    rw [h, hend, List.append_nil, chompingOf_breaks (by simp) hline hbreaks]
    split
    next hnone => simp [BlockLines.tail, hnone]
    next => simp [BlockLines.tail]
  next hmore =>
    have hchomping : chompingOf (c :: line ++ b :: (breaks ++ later)) = chompingOf later := by
      simpa using chompingOf_append (c :: line ++ b :: breaks) hmore hlater
    rw [hchomping, h]
    simp [BlockLines.whole]

/-- What was read after the empty lines at the start. -/
theorem BlockLines.Holds.text {found : BlockLines} {breaks tail : List Char} {afterBlank : Bool}
    (hbreaks : ∀ c ∈ breaks, isBreak c = true) (htail : StartsLine tail) (hne : breaks ++ tail ≠ [])
    (h : found.Holds ⟨[], none, afterBlank, breaks⟩ tail) :
    (found.tail (chompingOf (breaks ++ tail)) ++ found.done).reverse = breaks ++ tail := by
  unfold Holds at h
  split at h
  next hend =>
    rw [hend, List.append_nil] at hne ⊢
    rw [h, chompingOf_all_breaks hne hbreaks]
    simp [BlockLines.tail]
  next hmore =>
    rw [chompingOf_append breaks hmore htail, h]
    simp [whole]

/-- The last line of a block whose text ends with it. -/
theorem blockLinesFrom_last (hends : Ends indent count left) (fuel : Nat) (lines : BlockLines)
    {c : Char} {others : List Char} (hline : OneLine (c :: others)) {p : Position}
    (hp : p.column = indent) :
    ∃ found, blockLinesFrom false indent (fuel + 1) lines
        ⟨literalBody indent false (c :: others) ++ (spaces count ++ left), p⟩ =
        .ok (found, ⟨left, (p.after (literalBody indent false (c :: others))).after
          (spaces count)⟩) ∧
      found.Holds lines (c :: others) := by
  have hbody : literalBody indent false (c :: others) = c :: others ++ ['\n'] := by
    have h := literalBody_line indent hline []
    rwa [List.append_nil] at h
  obtain ⟨wider, hmargin⟩ := margin_literalBody hends [] [] (by simp) (by simp [StartsLine])
    (by simp) (p := (p.after (c :: others)).past '\n') rfl 0
  have hread := blockLinesFrom_line fuel lines hline (by decide) hp rfl hmargin
  have hleft := blockLinesFrom_left hends fuel
    ⟨(c :: others).reverse ++ lines.whole, some '\n', isBlank c, []⟩
    (p := (p.after (c :: others)).past '\n') rfl
  refine ⟨⟨(c :: others).reverse ++ lines.whole, some '\n', isBlank c, []⟩, ?_, ?_⟩
  · rw [hbody, List.append_assoc, Position.after_append]
    exact hread.trans hleft
  · rw [BlockLines.Holds, if_neg (by simp), chompingOf_line (by simp) hline]
    rfl

/-- The lines of a block are read up to what follows it. -/
theorem blockLinesFrom_body (hends : Ends indent count left) {text : List Char}
    (hstart : StartsLine text) (htabs : '\t' ∉ text) {fuel : Nat} (lines : BlockLines)
    {p : Position} (hp : p.column = 0)
    (hfuel : (blockCursor indent count left text p).rest.length ≤ fuel) :
    ∃ found, blockLinesFrom false indent fuel lines (blockCursor indent count left text p) =
        .ok (found, ⟨left, (p.after (literalBody indent true text)).after (spaces count)⟩) ∧
      found.Holds lines text := by
  -- line by line: what is left after a line and its empty lines is a shorter text
  induction hlength : text.length using Nat.strongRecOn generalizing text fuel lines p with
  | ind length ih =>
    cases text with
    | nil => exact ⟨lines, blockLinesFrom_left hends fuel lines hp, rfl⟩
    | cons c others =>
      have hc : isBreak c = false := hstart c rfl
      have hcolumn : (p.after (spaces indent)).column = indent := by
        rw [Position.after_spaces]
        show p.column + indent = indent
        omega
      have hcursor : blockCursor indent count left (c :: others) p =
          ⟨literalBody indent false (c :: others) ++ (spaces count ++ left),
            p.after (spaces indent)⟩ := rfl
      rw [literalBody_start indent hc, hcursor, Position.after_append]
      rw [hcursor] at hfuel
      obtain ⟨fuel, rfl⟩ : ∃ smaller, fuel = smaller + 1 := by
        refine ⟨fuel - 1, ?_⟩
        rw [literalBody, hc] at hfuel
        simp at hfuel
        omega
      rcases exists_line hc others with hline |
        ⟨line, b, breaks, later, hsplit, hline, hbreaks, hlater⟩
      · exact blockLinesFrom_last hends fuel lines hline hcolumn
      · obtain ⟨hb, hempty⟩ := List.forall_mem_cons.1 hbreaks
        rw [hsplit] at hlength htabs hfuel ⊢
        obtain ⟨q, hq, hqcolumn⟩ : ∃ q, ((p.after (spaces indent)).after (c :: line)).past b = q ∧
            q.column = 0 := ⟨_, rfl, by rw [Position.past_of_break hb]⟩
        have hbody : literalBody indent false (c :: line ++ b :: (breaks ++ later)) =
            c :: line ++ b :: literalBody indent true (breaks ++ later) := by
          rw [literalBody_line indent hline, literalBody, if_pos hb]
        have htail : '\t' ∉ later := fun hmem => htabs (by simp [hmem])
        have hshorter : later.length < length := by
          rw [← hlength]
          simp
          omega
        have hbounds := length_blockCursor_le indent count left later
          (q.after breaks)
        have henough : (blockCursor indent count left later (q.after breaks)).rest.length ≤ fuel := by
          rw [hbody] at hfuel
          simp [literalBody_breaks indent hempty] at hfuel hbounds
          omega
        obtain ⟨wider, hmargin⟩ :=
          margin_literalBody hends breaks later hempty hlater htail hqcolumn 0
        have hread := blockLinesFrom_line fuel lines hline hb hcolumn hq hmargin
        obtain ⟨found, hfound, hholds⟩ := ih later.length hshorter hlater htail
          ⟨(c :: line).reverse ++ lines.whole, some b, isBlank c, breaks⟩
          (column_after_breaks hempty hqcolumn) henough rfl
        have hposition : (p.after (spaces indent)).after
            (c :: line ++ b :: literalBody indent true (breaks ++ later)) =
            (q.after breaks).after (literalBody indent true later) := by
          rw [← hq, literalBody_breaks indent hempty]
          simp
        refine ⟨found, ?_, hholds.line hline hbreaks hlater⟩
        rw [hbody, hposition]
        simpa only [List.cons_append, List.append_assoc] using hread.trans hfound

/-- The indentation of the lines, as the header gives it or the first line shows it. -/
theorem margin_text (hends : Ends indent count left) {outer : Option Nat}
    (hindent : indent = outer.getD 0 + 2) {breaks tail : List Char}
    (hbreaks : ∀ c ∈ breaks, isBreak c = true) (htail : StartsLine tail)
    (htabs : '\t' ∉ breaks ++ tail) (hne : breaks ++ tail ≠ []) {p : Position} (hp : p.column = 0) :
    ∃ widest, margin ((indentationOf (breaks ++ tail)).map (outer.getD 0 + ·)) 0 p
        (literalBody indent true (breaks ++ tail) ++ (spaces count ++ left)) =
          .ok ⟨breaks, widest, blockCursor indent count left tail (p.after breaks)⟩ ∧
      ((indentationOf (breaks ++ tail)).map (outer.getD 0 + ·)).getD
        (max widest (max (outer.elim 0 (· + 1)) 1)) = indent := by
  by_cases hgiven : (breaks ++ tail).head?.any fun c => c = ' ' || isBreak c
  · have hindentation : indentationOf (breaks ++ tail) = some 2 := if_pos hgiven
    have hlater : '\t' ∉ tail := fun hmem => htabs (List.mem_append_right breaks hmem)
    obtain ⟨widest, hmargin⟩ := margin_literalBody hends breaks tail hbreaks htail hlater hp 0
    refine ⟨widest, ?_, ?_⟩
    · rw [hindentation, Option.map_some, ← hindent, hmargin]
    · rw [hindentation, Option.map_some, Option.getD_some, hindent]
  · have hindentation : indentationOf (breaks ++ tail) = none := if_neg hgiven
    obtain rfl : breaks = [] := by
      cases breaks with
      | nil => rfl
      | cons b others => simp [hbreaks b List.mem_cons_self] at hgiven
    obtain ⟨c, others, rfl⟩ := List.exists_cons_of_ne_nil hne
    have hc : isBreak c = false := htail c rfl
    have hspace : c ≠ ' ' := by
      rintro rfl
      simp at hgiven
    have htab : c ≠ '\t' := fun hc => htabs (by simp [hc])
    have hbody : literalBody indent false (c :: others) =
        c :: literalBody indent false others := by
      rw [literalBody, hc]
      rfl
    have hfree : ∀ column ∈ (none : Option Nat), p.column + indent ≤ column := by simp
    have hmargin := margin_line (literalBody indent false others ++ (spaces count ++ left)) indent 0 p
      hfree hc htab fun h => absurd h hspace
    refine ⟨max 0 (p.column + indent), ?_, ?_⟩
    · rw [hindentation, List.nil_append, literalBody_start indent hc, blockCursor, hbody,
        List.append_assoc]
      exact hmargin
    · rw [hindentation, hindent]
      cases outer <;> simp [hp]

/-- A literal block is read back with its breaks, up to the first token after it. -/
theorem blockScalar_styled {outer : Option Nat} (hindent : indent = outer.getD 0 + 2)
    {text rest : List Char} (hfits : fitsBlock text = true) (hfeed : '\n' ∈ text)
    (hrest : LeftOf indent rest) (p : Position) :
    ∃ count left, rest = spaces count ++ left ∧ (∀ c ∈ left.head?, StartsToken c) ∧
      blockScalar false outer ⟨styled indent text .literal ++ rest, p⟩ =
        .ok (text, ⟨left, (p.after (styled indent text .literal)).after (spaces count)⟩) := by
  obtain ⟨count, left, rfl, hends⟩ := hrest.ends (by omega)
  refine ⟨count, left, rfl, hends.starts, ?_⟩
  have htabs : '\t' ∉ text := by
    intro hmem
    simp only [fitsBlock, isShowable, Bool.and_eq_true, List.all_eq_true] at hfits
    exact absurd (hfits.1.1 _ hmem) (by decide)
  obtain ⟨breaks, tail, rfl, hbreaks, htail⟩ := exists_breaks text
  have hne : breaks ++ tail ≠ [] := List.ne_nil_of_mem hfeed
  obtain ⟨widest, hmargin, hgiven⟩ := margin_text hends hindent hbreaks htail htabs hne
    (p := (p.after ('|' :: indicators (breaks ++ tail))).past '\n') rfl
  obtain ⟨found, hfound, hholds⟩ := blockLinesFrom_body hends htail
    (fun hmem => htabs (List.mem_append_right breaks hmem)) ⟨[], none, false, breaks⟩
    (column_after_breaks hbreaks (p := (p.after ('|' :: indicators (breaks ++ tail))).past '\n') rfl)
    (Nat.le_refl _)
  have htext := hholds.text hbreaks htail hne
  have hread := blockScalar_literal (p := p) hmargin hgiven hfound
  rw [htext] at hread
  have hposition : p.after ('|' :: (indicators (breaks ++ tail) ++
      '\n' :: literalBody indent true (breaks ++ tail))) =
      (((p.after ('|' :: indicators (breaks ++ tail))).past '\n').after breaks).after
        (literalBody indent true tail) := by
    simp [literalBody_breaks indent hbreaks]
  rw [styled_literal, hposition]
  simpa using hread

/-- A literal block takes up lines of its own. -/
theorem column_after_literal (indent : Nat) (text : List Char) (p : Position) :
    (p.after (styled indent text .literal)).column = 0 := by
  rw [styled_literal, Position.after_cons, Position.after_append, Position.after_cons]
  exact column_after_literalBody indent text fun _ => rfl

end Lines

end ApiTidy.Yaml
