import ApiTidy.Proofs.Yaml.Collection
import ApiTidy.Proofs.Yaml.Shown

/-!
The text of a tree is read as the tokens of the tree. A node is read wherever it may stand, and what
follows it is further left than the parts of the collection around it.
-/
namespace ApiTidy.Yaml

/-- A collection that is written as a block: one with parts. -/
def isBlock : Node → Bool
  | .sequence (_ :: _) | .mapping (_ :: _) => true
  | _ => false

mutual

/-- The tokens of a node. A sequence that starts in the column of its key is `flat`: nothing marks
its start and its end. -/
def tokensOf (flat : Bool) : Node → List Token
  | .scalar value => [.scalar (styleOf value) (String.ofList (spelling value))]
  | .sequence [] => [.flowSequenceStart, .flowSequenceEnd]
  | .mapping [] => [.flowMappingStart, .flowMappingEnd]
  | .sequence (item :: rest) =>
    let items := .blockEntry :: tokensOf false item ++ tokensOfItems rest
    if flat then items else .blockSequenceStart :: items ++ [.blockEnd]
  | .mapping ((key, value) :: rest) =>
    .blockMappingStart :: .key :: .scalar (.ofText key.toList) key :: .value ::
      tokensOf (isSimpleKey key) value ++ tokensOfEntries rest ++ [.blockEnd]

def tokensOfItems : List Node → List Token
  | [] => []
  | item :: rest => .blockEntry :: tokensOf false item ++ tokensOfItems rest

def tokensOfEntries : List (String × Node) → List Token
  | [] => []
  | (key, value) :: rest =>
    .key :: .scalar (.ofText key.toList) key :: .value ::
      tokensOf (isSimpleKey key) value ++ tokensOfEntries rest

end

namespace Lexer

/-- Where a node may stand: anywhere in its collection if it takes up the rest of a line, and else in
its own column, further right than the collection, or in the column of its key if it is flat. -/
inductive Fits (indents : List Nat) (p : Position) : Bool → Bool → Nat → Node → Prop
  | line {flat keyAllowed : Bool} {column : Nat} {node : Node} (hnode : isBlock node = false)
      (hinner : inner indents ≤ p.column) (hcolumn : column = indents.head?.getD 0 + 2) :
      Fits indents p flat keyAllowed column node
  | block {flat : Bool} {node : Node} (hnode : isBlock node = true)
      (hflat : flat = true → node.isMapping = true) (hinner : inner indents ≤ p.column) :
      Fits indents p flat true p.column node
  | flat {item : Node} {others : List Node} {outer : List Nat}
      (hindents : indents = p.column :: outer) :
      Fits indents p true true p.column (.sequence (item :: others))

/-- A node is read as its tokens, up to a token that is left of the parts of its collection. -/
def Lexed (node : Node) : Prop :=
  ∀ ⦃flat keyAllowed : Bool⦄ ⦃indents : List Nat⦄ ⦃p : Position⦄ ⦃column : Nat⦄ ⦃rest : List Char⦄
    (tokens : List Token), Fits indents p flat keyAllowed column node →
    LeftOf (inner indents) rest → ∃ q : Position, q.column = 0 ∧
      Leads (ready tokens indents keyAllowed p (renderAt column node ++ rest))
        (ready (tokens ++ tokensOf flat node) indents true q rest)

theorem lexed_scalar {value : Scalar} (h : value.Integral) : Lexed (.scalar value) := by
  intro flat keyAllowed indents p column rest tokens hfits hrest
  cases hfits with
  | line _ hinner hcolumn =>
    refine ⟨p.after (scalarLine column value), ?_, ?_⟩
    · rw [scalarLine_eq, column_after_styledLine]
    · rw [renderAt, scalarLine_eq]
      exact leads_line (holds_spelling h) hinner hcolumn hrest
  | block hnode => cases hnode

theorem lexed_empty_sequence : Lexed (.sequence []) := by
  intro flat keyAllowed indents p column rest tokens hfits hrest
  cases hfits with
  | line _ hinner =>
    exact ⟨p.after ['[', ']', '\n'], rfl,
      leads_brackets (by decide) (by decide) ⟨rfl, rfl⟩ (fun _ => rfl) (fun _ => rfl) hinner hrest⟩
  | block hnode => cases hnode

theorem lexed_empty_mapping : Lexed (.mapping []) := by
  intro flat keyAllowed indents p column rest tokens hfits hrest
  cases hfits with
  | line _ hinner =>
    exact ⟨p.after ['\x7b', '\x7d', '\n'], rfl,
      leads_brackets (by decide) (by decide) ⟨rfl, rfl⟩ (fun _ => rfl) (fun _ => rfl) hinner hrest⟩
  | block hnode => cases hnode

section Parts
variable (tokens : List Token) {indents outer : List Nat} {p : Position} {rest : List Char}
  {column : Nat}

/-- What follows an item: the next one, or what follows the sequence. -/
theorem leftOf_renderItems (items : List Node) (hrest : LeftOf (column + 1) rest) :
    LeftOf (column + 1) (renderItems column items ++ rest) := by
  cases items with
  | nil => exact hrest
  | cons item others =>
    have hnext : renderItems column (item :: others) ++ rest = spaces column ++ '-' ::
        (' ' :: renderAt (column + 2) item ++ renderItems column others ++ rest) := by
      simp [renderItems]
    exact .inr ⟨column, '-', _, Nat.lt_succ_self column, by decide, hnext⟩

theorem startsToken_entryStart (column : Nat) (key : String) (value : Node) :
    ∃ c more, entryStart column key value = c :: more ∧ StartsToken c := by
  unfold entryStart
  split
  · obtain ⟨c, more, hstyled, hc⟩ :=
      startsToken_styled (column + 2) (ScalarStyle.ofText_holds key.toList)
    exact ⟨c, _, by rw [hstyled]; rfl, hc⟩
  · exact ⟨'?', _, rfl, by decide⟩

theorem leftOf_renderEntries (entries : Entries Node) (hrest : LeftOf (column + 1) rest) :
    LeftOf (column + 1) (renderEntries column entries ++ rest) := by
  cases entries with
  | nil => exact hrest
  | cons entry others =>
    obtain ⟨c, more, hstart, hc⟩ := startsToken_entryStart column entry.1 entry.2
    have hnext : renderEntries column (entry :: others) ++ rest = spaces column ++ c ::
        (more ++ renderAt (valueColumn column entry.1 entry.2) entry.2 ++
          renderEntries column others ++ rest) := by
      simp [renderEntries, hstart]
    exact .inr ⟨column, c, _, Nat.lt_succ_self column, hc, hnext⟩

/-- A node in its own column further right than its collection fits there whatever it is. -/
theorem fits_of_column {node : Node} (hp : p.column = column + 2) :
    Fits (column :: outer) p false true (column + 2) node := by
  have hinner : inner (column :: outer) ≤ p.column := by
    rw [hp, inner_cons]
    omega
  cases hnode : isBlock node with
  | false => exact .line hnode hinner rfl
  | true => exact hp ▸ .block hnode (fun h => nomatch h) hinner

/-- An item after its hyphen. -/
theorem leads_item {item : Node} (hitem : Lexed item) (hp : p.column = column)
    (hinner : inner indents ≤ column + 1) (hwithin : within indents column = column :: outer)
    (hrest : LeftOf (column + 1) rest) :
    ∃ q : Position, q.column = 0 ∧
      Leads (ready tokens indents true p ('-' :: ' ' :: (renderAt (column + 2) item ++ rest)))
        (ready (tokens ++ (opened indents column .blockSequenceStart ++
          .blockEntry :: tokensOf false item)) (column :: outer) true q rest) := by
  subst hp
  have hhyphen : Leads
      (ready tokens indents true p ('-' :: ' ' :: (renderAt (p.column + 2) item ++ rest))) _ :=
    leads_hyphen hinner
  rw [hwithin] at hhyphen
  obtain ⟨q, hq, hleads⟩ := hitem (tokens ++ opened indents p.column .blockSequenceStart ++
    [.blockEntry]) (fits_of_column (p := p.after ['-', ' ']) rfl) hrest
  refine ⟨q, hq, hhyphen.trans ?_⟩
  simpa using hleads

theorem column_after_spaces (hp : p.column = 0) (column : Nat) :
    (p.after (spaces column)).column = column := by
  rw [Position.after_spaces]
  show p.column + column = column
  rw [hp, Nat.zero_add]

theorem leads_items {items : List Node} (hitems : ∀ item ∈ items, Lexed item)
    (hrest : LeftOf (column + 1) rest) (hp : p.column = 0) :
    ∃ q : Position, q.column = 0 ∧
      Leads (ready tokens (column :: outer) true p (renderItems column items ++ rest))
        (ready (tokens ++ tokensOfItems items) (column :: outer) true q rest) := by
  induction items generalizing tokens p with
  | nil => exact ⟨p, hp, by simpa [renderItems, tokensOfItems] using .refl _⟩
  | cons item others ih =>
    obtain ⟨hitem, hothers⟩ := List.forall_mem_cons.1 hitems
    have hcolumn := column_after_spaces hp column
    obtain ⟨q, hq, hfirst⟩ := leads_item tokens hitem hcolumn (Nat.le_refl _) within_cons
      (leftOf_renderItems others hrest)
    obtain ⟨r, hr, hlater⟩ := ih (tokens ++ .blockEntry :: tokensOf false item) hothers hq
    refine ⟨r, hr, ?_⟩
    rw [renderItems, tokensOfItems]
    simp only [List.append_assoc, List.cons_append, List.nil_append, opened_cons] at hfirst hlater ⊢
    exact (leads_spaces column p).trans (hfirst.trans hlater)

/-- A sequence with items: its first item opens it, unless it is flat. -/
theorem lexed_sequence {item : Node} {others : List Node} (h : ∀ node ∈ item :: others, Lexed node) :
    Lexed (.sequence (item :: others)) := by
  obtain ⟨hitem, hothers⟩ := List.forall_mem_cons.1 h
  intro flat keyAllowed indents p column rest tokens hfits hrest
  cases hfits with
  | line hnode => cases hnode
  | block _ hflat hinner =>
    obtain rfl : flat = false := by simpa [Node.isMapping] using hflat
    have hright : LeftOf (p.column + 1) rest := hrest.mono (Nat.le_succ_of_le hinner)
    obtain ⟨q, hq, hfirst⟩ := leads_item tokens hitem rfl (Nat.le_succ_of_le hinner)
      (within_of_inner hinner) (leftOf_renderItems others hright)
    obtain ⟨r, hr, hlater⟩ := leads_items (tokens ++ .blockSequenceStart :: .blockEntry ::
      tokensOf false item) hothers hright hq
    have hclose :
        Leads (ready (tokens ++ .blockSequenceStart :: .blockEntry :: tokensOf false item ++
          tokensOfItems others) (p.column :: indents) true r rest) _ :=
      leads_close hr (hrest.mono hinner)
    refine ⟨r, hr, ?_⟩
    rw [renderAt, tokensOf]
    rw [opened_of_inner hinner] at hfirst
    simp only [List.append_assoc, List.cons_append, List.nil_append] at hfirst hlater hclose ⊢
    exact hfirst.trans (hlater.trans hclose)
  | @flat _ _ outer hindents =>
    subst hindents
    obtain ⟨q, hq, hfirst⟩ := leads_item tokens hitem rfl (Nat.le_refl _) within_cons
      (leftOf_renderItems others hrest)
    obtain ⟨r, hr, hlater⟩ := leads_items (tokens ++ .blockEntry :: tokensOf false item) hothers
      hrest hq
    refine ⟨r, hr, ?_⟩
    rw [renderAt, tokensOf]
    simp only [List.append_assoc, List.cons_append, List.nil_append, opened_cons, if_true]
      at hfirst hlater ⊢
    exact hfirst.trans hlater

/-- The value of a simple key. It goes on on the line of the key, or starts on the next one. -/
theorem leads_value (outer : List Nat) {value : Node} (hvalue : Lexed value) (hp : column < p.column)
    (hrest : LeftOf (column + 1) rest) :
    ∃ q : Position, q.column = 0 ∧
      Leads (ready tokens (column :: outer) false p ((valueStart column value).1 ++
          (renderAt (valueStart column value).2 value ++ rest)))
        (ready (tokens ++ tokensOf true value) (column :: outer) true q rest) := by
  have hline : isBlock value = false → ∃ q : Position, q.column = 0 ∧
      Leads (ready tokens (column :: outer) false p (' ' :: (renderAt (column + 2) value ++ rest)))
        (ready (tokens ++ tokensOf true value) (column :: outer) true q rest) := by
    intro hnode
    have hinner : inner (column :: outer) ≤ (p.past ' ').column := Nat.le_succ_of_le hp
    obtain ⟨q, hq, hleads⟩ := hvalue tokens (.line hnode hinner rfl) hrest
    exact ⟨q, hq, leads_space.trans hleads⟩
  cases value with
  | scalar value => exact hline rfl
  | sequence items =>
    cases items with
    | nil => exact hline rfl
    | cons item others =>
      have hcolumn : ((p.past '\n').after (spaces column)).column = column :=
        column_after_spaces rfl column
      obtain ⟨q, hq, hleads⟩ := hvalue tokens (.flat (congrArg (· :: outer) hcolumn.symm)) hrest
      rw [hcolumn] at hleads
      exact ⟨q, hq, leads_break.trans ((leads_spaces column _).trans hleads)⟩
  | mapping entries =>
    cases entries with
    | nil => exact hline rfl
    | cons entry others =>
      have hcolumn : ((p.past '\n').after (spaces (column + 2))).column = column + 2 :=
        column_after_spaces rfl (column + 2)
      have hinner : inner (column :: outer) ≤ ((p.past '\n').after (spaces (column + 2))).column := by
        rw [hcolumn, inner_cons]
        omega
      obtain ⟨q, hq, hleads⟩ := hvalue tokens (.block rfl (fun _ => rfl) hinner) hrest
      rw [hcolumn] at hleads
      exact ⟨q, hq, leads_break.trans ((leads_spaces (column + 2) _).trans hleads)⟩

/-- A key without a mark, and its value. -/
theorem leads_simpleEntry {key : String} {value : Node} (hvalue : Lexed value)
    (hkey : isSimpleKey key = true) (hp : p.column = column) (hinner : inner indents ≤ column + 1)
    (hwithin : within indents column = column :: outer) (hrest : LeftOf (column + 1) rest) :
    ∃ q : Position, q.column = 0 ∧
      Leads (ready tokens indents true p (entryStart column key value ++
          (renderAt (valueColumn column key value) value ++ rest)))
        (ready (tokens ++ (opened indents column .blockMappingStart ++
          .key :: .scalar (.ofText key.toList) key :: .value :: tokensOf true value))
          (column :: outer) true q rest) := by
  subst hp
  obtain ⟨hline, hsize⟩ := of_isSimpleKey hkey
  have hstyle := ScalarStyle.ofText_holds key.toList
  have hword : endsWord ((valueStart p.column value).1 ++
      (renderAt (valueStart p.column value).2 value ++ rest)) = true := by
    unfold valueStart
    split <;> rfl
  have hstart : Leads (ready tokens indents true p
      (styled (p.column + 2) key.toList (.ofText key.toList) ++ ':' ::
        ((valueStart p.column value).1 ++
          (renderAt (valueStart p.column value).2 value ++ rest)))) _ :=
    leads_simpleKey hstyle hline hsize (Nat.succ_pos _) hinner hword
  rw [hwithin, String.ofList_toList] at hstart
  have hcolon : OneLine (styled (p.column + 2) key.toList (.ofText key.toList) ++ [':']) :=
    OneLine.append (isBreak_of_mem_styled _ hstyle hline) (List.forall_mem_singleton.2 rfl)
  have hright : p.column <
      (p.after (styled (p.column + 2) key.toList (.ofText key.toList) ++ [':'])).column := by
    rw [Position.after_oneLine hcolon]
    simp
  obtain ⟨q, hq, hleads⟩ := leads_value (tokens ++
    opened indents p.column .blockMappingStart ++ [.key, .scalar (.ofText key.toList) key, .value])
    outer hvalue hright hrest
  refine ⟨q, hq, ?_⟩
  rw [entryStart, valueColumn, if_pos hkey, if_pos hkey]
  simp only [List.append_assoc, List.cons_append, List.nil_append] at hstart hleads ⊢
  exact hstart.trans hleads

/-- The colon after a key with a mark stands on a line of its own, in the column of the mark. -/
theorem leads_colonLine (outer : List Nat) (rest : List Char) (hp : p.column = 0) (column : Nat) :
    ((p.after (spaces column)).after [':', ' ']).column = column + 2 ∧
      Leads (ready tokens (column :: outer) true p (spaces column ++ ':' :: ' ' :: rest))
        (ready (tokens ++ [.value]) (column :: outer) true
          ((p.after (spaces column)).after [':', ' ']) rest) := by
  have hcolumn := column_after_spaces hp column
  have hcolon : Leads (ready tokens ((p.after (spaces column)).column :: outer) true
    (p.after (spaces column)) (':' :: ' ' :: rest)) _ := leads_colon
  rw [hcolumn] at hcolon
  exact ⟨congrArg (· + 2) hcolumn, (leads_spaces column p).trans hcolon⟩

/-- A key with a mark, and its value. -/
theorem leads_markedEntry {key : String} {value : Node} (hvalue : Lexed value)
    (hkey : isSimpleKey key = false) (hp : p.column = column) (hinner : inner indents ≤ column + 1)
    (hwithin : within indents column = column :: outer) (hrest : LeftOf (column + 1) rest) :
    ∃ q : Position, q.column = 0 ∧
      Leads (ready tokens indents true p (entryStart column key value ++
          (renderAt (valueColumn column key value) value ++ rest)))
        (ready (tokens ++ (opened indents column .blockMappingStart ++
          .key :: .scalar (.ofText key.toList) key :: .value :: tokensOf false value))
          (column :: outer) true q rest) := by
  subst hp
  have hmark : Leads (ready tokens indents true p ('?' :: ' ' ::
      (textLine (p.column + 2) key.toList ++ (spaces p.column ++ ':' :: ' ' ::
        (renderAt (p.column + 2) value ++ rest))))) _ := leads_keyMark hinner
  rw [hwithin] at hmark
  have hinside : inner (p.column :: outer) ≤ (p.after ['?', ' ']).column := Nat.le_succ _
  have hnext : LeftOf (p.column + 1) (spaces p.column ++ ':' :: ' ' ::
      (renderAt (p.column + 2) value ++ rest)) :=
    .inr ⟨_, _, _, Nat.lt_succ_self _, by decide, rfl⟩
  have hkeyLine : Leads (ready (tokens ++ opened indents p.column .blockMappingStart ++ [.key])
      (p.column :: outer) true (p.after ['?', ' ']) (textLine (p.column + 2) key.toList ++
        (spaces p.column ++ ':' :: ' ' :: (renderAt (p.column + 2) value ++ rest)))) _ :=
    leads_line (ScalarStyle.ofText_holds key.toList) hinside rfl hnext
  rw [String.ofList_toList] at hkeyLine
  have hcolon := leads_colonLine (tokens ++ opened indents p.column .blockMappingStart ++ [.key] ++
    [.scalar (.ofText key.toList) key]) outer (renderAt (p.column + 2) value ++ rest)
    (column_after_styledLine (p.column + 2) key.toList (.ofText key.toList) (p.after ['?', ' ']))
    p.column
  obtain ⟨q, hq, hleads⟩ := hvalue (tokens ++ opened indents p.column .blockMappingStart ++ [.key] ++
    [.scalar (.ofText key.toList) key] ++ [.value]) (fits_of_column hcolon.1) hrest
  refine ⟨q, hq, ?_⟩
  have hkeyStart : entryStart p.column key value =
      '?' :: ' ' :: (textLine (p.column + 2) key.toList ++ (spaces p.column ++ [':', ' '])) := by
    simp [entryStart, hkey]
  rw [hkeyStart, valueColumn, hkey, if_neg Bool.false_ne_true]
  have hread := hmark.trans (hkeyLine.trans (hcolon.2.trans hleads))
  simpa using hread

/-- A key with its value. -/
theorem leads_entry (key : String) {value : Node} (hvalue : Lexed value) (hp : p.column = column)
    (hinner : inner indents ≤ column + 1) (hwithin : within indents column = column :: outer)
    (hrest : LeftOf (column + 1) rest) :
    ∃ q : Position, q.column = 0 ∧
      Leads (ready tokens indents true p (entryStart column key value ++
          (renderAt (valueColumn column key value) value ++ rest)))
        (ready (tokens ++ (opened indents column .blockMappingStart ++
          .key :: .scalar (.ofText key.toList) key :: .value :: tokensOf (isSimpleKey key) value))
          (column :: outer) true q rest) := by
  cases hkey : isSimpleKey key with
  | true => exact leads_simpleEntry tokens hvalue hkey hp hinner hwithin hrest
  | false => exact leads_markedEntry tokens hvalue hkey hp hinner hwithin hrest

theorem leads_entries {entries : Entries Node} (hvalues : ∀ entry ∈ entries, Lexed entry.2)
    (hrest : LeftOf (column + 1) rest) (hp : p.column = 0) :
    ∃ q : Position, q.column = 0 ∧
      Leads (ready tokens (column :: outer) true p (renderEntries column entries ++ rest))
        (ready (tokens ++ tokensOfEntries entries) (column :: outer) true q rest) := by
  induction entries generalizing tokens p with
  | nil => exact ⟨p, hp, by simpa [renderEntries, tokensOfEntries] using .refl _⟩
  | cons entry others ih =>
    obtain ⟨hvalue, hothers⟩ := List.forall_mem_cons.1 hvalues
    have hcolumn := column_after_spaces hp column
    obtain ⟨q, hq, hfirst⟩ := leads_entry tokens entry.1 hvalue hcolumn (Nat.le_refl _)
      within_cons (leftOf_renderEntries others hrest)
    obtain ⟨r, hr, hlater⟩ := ih (tokens ++ .key :: .scalar (.ofText entry.1.toList) entry.1 ::
      .value :: tokensOf (isSimpleKey entry.1) entry.2) hothers hq
    refine ⟨r, hr, ?_⟩
    rw [renderEntries, tokensOfEntries]
    simp only [List.append_assoc, List.cons_append, List.nil_append, opened_cons] at hfirst hlater ⊢
    exact (leads_spaces column p).trans (hfirst.trans hlater)

/-- A mapping with entries: its first key opens it. -/
theorem lexed_mapping {entry : String × Node} {others : Entries Node}
    (h : ∀ part ∈ entry :: others, Lexed part.2) : Lexed (.mapping (entry :: others)) := by
  obtain ⟨hvalue, hothers⟩ := List.forall_mem_cons.1 h
  intro flat keyAllowed indents p column rest tokens hfits hrest
  cases hfits with
  | line hnode => cases hnode
  | block _ hflat hinner =>
    have hright : LeftOf (p.column + 1) rest := hrest.mono (Nat.le_succ_of_le hinner)
    obtain ⟨q, hq, hfirst⟩ := leads_entry tokens entry.1 hvalue rfl (Nat.le_succ_of_le hinner)
      (within_of_inner hinner) (leftOf_renderEntries others hright)
    obtain ⟨r, hr, hlater⟩ := leads_entries (tokens ++ .blockMappingStart :: .key ::
      .scalar (.ofText entry.1.toList) entry.1 :: .value ::
      tokensOf (isSimpleKey entry.1) entry.2) hothers hright hq
    have hclose : Leads (ready (tokens ++ .blockMappingStart :: .key ::
        .scalar (.ofText entry.1.toList) entry.1 :: .value ::
        tokensOf (isSimpleKey entry.1) entry.2 ++ tokensOfEntries others) (p.column :: indents) true r
        rest) _ := leads_close hr (hrest.mono hinner)
    refine ⟨r, hr, ?_⟩
    rw [renderAt, tokensOf]
    rw [opened_of_inner hinner] at hfirst
    simp only [List.append_assoc, List.cons_append, List.nil_append] at hfirst hlater hclose ⊢
    exact hfirst.trans (hlater.trans hclose)

end Parts

/-- Every tree without floats is read as its tokens. -/
theorem lexed_of_integral {node : Node} (h : node.Integral) : Lexed node := by
  induction node using Node.induct with
  | scalar value => exact lexed_scalar (Node.integral_scalar.1 h)
  | sequence items ih =>
    have hitems := Node.integral_sequence.1 h
    cases items with
    | nil => exact lexed_empty_sequence
    | cons item others => exact lexed_sequence fun node hmem => ih node hmem (hitems node hmem)
  | mapping entries ih =>
    have hvalues := Node.integral_mapping.1 h
    cases entries with
    | nil => exact lexed_empty_mapping
    | cons entry others => exact lexed_mapping fun part hmem => ih part hmem (hvalues part hmem)

/-- A whole text that is read as some tokens. -/
theorem run_of_leads {text : List Char} {tokens : List Token} {p : Position}
    (h : Leads (start text) (ready tokens [] true p [])) :
    run (text.length + 1) (start text) = .ok (tokens ++ [Token.streamEnd]).toArray := by
  obtain ⟨turns, hturns, hrun⟩ := h
  have hfuel : text.length + 1 = text.length - turns + 1 + turns := by
    have hlength : turns + 0 ≤ text.length := hturns
    omega
  rw [hfuel, hrun, run_end]
  simp

end Lexer

/-- The tokens of the text of a tree, which is written in the first column. -/
theorem tokens_render {node : Node} (h : node.Integral) :
    tokens (render node).toList = .ok (tokensOf false node ++ [.streamEnd]) := by
  obtain ⟨column, htext, hfits⟩ : ∃ column, render node = String.ofList (renderAt column node) ∧
      Lexer.Fits [] .start false true column node := by
    cases node with
    | scalar value => exact ⟨2, rfl, .line rfl (Nat.le_refl 0) rfl⟩
    | sequence items =>
      cases items with
      | nil => exact ⟨2, rfl, .line rfl (Nat.le_refl 0) rfl⟩
      | cons item others => exact ⟨0, rfl, .block rfl (fun h => nomatch h) (Nat.le_refl 0)⟩
    | mapping entries =>
      cases entries with
      | nil => exact ⟨2, rfl, .line rfl (Nat.le_refl 0) rfl⟩
      | cons entry others => exact ⟨0, rfl, .block rfl (fun h => nomatch h) (Nat.le_refl 0)⟩
  obtain ⟨q, -, hleads⟩ := Lexer.lexed_of_integral h [] hfits (.inl rfl)
  have hshown := shown_renderAt h column
  rw [List.append_nil] at hleads
  rw [htext, String.toList_ofList, tokens, find?_of_shown hshown, normalizeBreaks_of_shown hshown]
  refine Except.bind_eq_ok.2 ⟨_, Lexer.run_of_leads hleads, ?_⟩
  exact congrArg Except.ok List.toList_toArray

end ApiTidy.Yaml
