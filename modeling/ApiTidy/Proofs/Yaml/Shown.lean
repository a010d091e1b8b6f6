import ApiTidy.Proofs.Yaml.Spelling

/-!
The text of a tree consists of characters that can be shown. So it can be read, and no break in it
is taken for another one.
-/
namespace ApiTidy.Yaml

/-- All characters of a text can be shown. -/
def Shown (text : List Char) : Prop := ∀ c ∈ text, isPrintable c = true

theorem Shown.append {first second : List Char} (hfirst : Shown first) (hsecond : Shown second) :
    Shown (first ++ second) :=
  List.forall_mem_append.2 ⟨hfirst, hsecond⟩

theorem Shown.cons {c : Char} {text : List Char} (hc : isPrintable c = true) (h : Shown text) :
    Shown (c :: text) :=
  List.forall_mem_cons.2 ⟨hc, h⟩

theorem shown_nil : Shown [] := fun _ h => nomatch h

theorem shown_spaces (count : Nat) : Shown (spaces count) := by
  intro c hc
  rw [List.eq_of_mem_replicate hc]
  decide

theorem shown_styledLine (indent : Nat) {text : List Char} {style : ScalarStyle}
    (hstyle : style.Holds text) : Shown (styledLine indent text style) := by
  refine Shown.append (isPrintable_of_mem_styled hstyle) ?_
  split
  · exact shown_nil
  · exact .cons (by decide) shown_nil

theorem shown_textLine (indent : Nat) (text : List Char) : Shown (textLine indent text) :=
  shown_styledLine indent (ScalarStyle.ofText_holds text)

theorem shown_entryStart (column : Nat) (key : String) (value : Node) :
    Shown (entryStart column key value) := by
  have hvalue : Shown (valueStart column value).1 := by
    unfold valueStart
    split
    · exact .cons (by decide) (shown_spaces column)
    · exact .cons (by decide) (shown_spaces (column + 2))
    · exact .cons (by decide) shown_nil
  unfold entryStart
  split
  · exact Shown.append (isPrintable_of_mem_styled (ScalarStyle.ofText_holds key.toList))
      (.cons (by decide) hvalue)
  · exact (Shown.cons (by decide) (.cons (by decide) (shown_textLine (column + 2) key.toList))).append
      (shown_spaces column) |>.append (.cons (by decide) (.cons (by decide) shown_nil))

theorem shown_renderItems {items : List Node}
    (h : ∀ item ∈ items, ∀ column, Shown (renderAt column item)) (column : Nat) :
    Shown (renderItems column items) := by
  induction items with
  | nil => exact shown_nil
  | cons item others ih =>
    obtain ⟨hitem, hothers⟩ := List.forall_mem_cons.1 h
    exact ((shown_spaces column).append (.cons (by decide) (.cons (by decide)
      (hitem (column + 2))))).append (ih hothers)

theorem shown_renderEntries {entries : Entries Node}
    (h : ∀ entry ∈ entries, ∀ column, Shown (renderAt column entry.2)) (column : Nat) :
    Shown (renderEntries column entries) := by
  induction entries with
  | nil => exact shown_nil
  | cons entry others ih =>
    obtain ⟨hvalue, hothers⟩ := List.forall_mem_cons.1 h
    exact (((shown_spaces column).append (shown_entryStart column entry.1 entry.2)).append
      (hvalue _)).append (ih hothers)

theorem shown_renderAt {node : Node} (h : node.Integral) (column : Nat) :
    Shown (renderAt column node) := by
  induction node using Node.induct generalizing column with
  | scalar value =>
    rw [renderAt, scalarLine_eq]
    exact shown_styledLine column (holds_spelling (Node.integral_scalar.1 h))
  | sequence items ih =>
    have hitems := Node.integral_sequence.1 h
    cases items with
    | nil => exact .cons (by decide) (.cons (by decide) (.cons (by decide) shown_nil))
    | cons item others =>
      have hparts : ∀ node ∈ item :: others, ∀ column, Shown (renderAt column node) :=
        fun node hmem => ih node hmem (hitems node hmem)
      obtain ⟨hitem, hothers⟩ := List.forall_mem_cons.1 hparts
      exact Shown.append (.cons (by decide) (.cons (by decide) (hitem (column + 2))))
        (shown_renderItems hothers column)
  | mapping entries ih =>
    have hvalues := Node.integral_mapping.1 h
    cases entries with
    | nil => exact .cons (by decide) (.cons (by decide) (.cons (by decide) shown_nil))
    | cons entry others =>
      have hparts : ∀ part ∈ entry :: others, ∀ column, Shown (renderAt column part.2) :=
        fun part hmem => ih part hmem (hvalues part hmem)
      obtain ⟨hvalue, hothers⟩ := List.forall_mem_cons.1 hparts
      exact ((shown_entryStart column entry.1 entry.2).append (hvalue _)).append
        (shown_renderEntries hothers column)

theorem normalizeBreaks_of_shown {text : List Char} (h : Shown text) :
    normalizeBreaks text = text := by
  have hbreaks := normalizeBreaks_append h []
  rwa [normalizeBreaks, List.append_nil] at hbreaks

theorem find?_of_shown {text : List Char} (h : Shown text) : text.find? (!isReadable ·) = none := by
  refine List.find?_eq_none.2 fun c hc => ?_
  have hprintable := h c hc
  simp only [isPrintable, Bool.or_eq_true, decide_eq_true_eq, Bool.and_eq_true] at hprintable
  simp only [isReadable, Bool.not_eq_true', Bool.not_eq_false, Bool.or_eq_true, decide_eq_true_eq,
    Bool.and_eq_true]
  omega

end ApiTidy.Yaml
