import ApiTidy.Json.Printer
import ApiTidy.Proofs.Json.Numeral
import ApiTidy.Proofs.Json.Quoted
import ApiTidy.Proofs.Node

/-!
The tokens of a printed tree. Scanning is a judgment with the rest of the text in it, so the scans of
two pieces compose although a numeral ends where its continuation says so.
-/
namespace ApiTidy.Json
variable {text middle rest : List Char} {found later : List Token} {level : Nat}

/-- The text starts with these tokens, and this is what follows the last of them. -/
inductive Scans : List Char → List Token → List Char → Prop
  | done {rest : List Char} : Scans rest [] rest
  | space {c : Char} {text rest : List Char} {found : List Token} :
      isSpace c = true → Scans text found rest → Scans (c :: text) found rest
  | token {c : Char} {text left rest : List Char} {token : Token} {found : List Token} :
      isSpace c = false → token? (c :: text) = .ok (token, left) → left.length ≤ text.length →
        Scans left found rest → Scans (c :: text) (token :: found) rest

theorem Scans.append (first : Scans text found middle) (last : Scans middle later rest) :
    Scans text (found ++ later) rest := by
  induction first with
  | done => exact last
  | space hspace _ ih => exact .space hspace (ih last)
  | token hspace htoken hle _ ih => exact .token hspace htoken hle (ih last)

theorem Scans.tokensFrom_eq (h : Scans text found []) {fuel : Nat} (hfuel : text.length ≤ fuel) :
    tokensFrom fuel text = .ok found := by
  generalize hend : [] = rest at h
  induction h generalizing fuel with
  | done =>
    subst hend
    cases fuel <;> rfl
  | space hspace _ ih =>
    cases fuel with
    | zero => cases hfuel
    | succ fuel =>
      rw [tokensFrom, if_pos hspace]
      exact ih (Nat.le_of_succ_le_succ hfuel) hend
  | token hspace htoken hle _ ih =>
    cases fuel with
    | zero => cases hfuel
    | succ fuel =>
      have hlater := ih (Nat.le_trans hle (Nat.le_of_succ_le_succ hfuel)) hend
      rw [tokensFrom, hspace, if_neg Bool.false_ne_true, htoken]
      simp only [bind, Except.bind, hlater]
      rfl

theorem scans_token {c : Char} {token : Token} (chunk : List Char) (hspace : isSpace c = false)
    (h : token? (c :: (chunk ++ rest)) = .ok (token, rest)) :
    Scans (c :: (chunk ++ rest)) [token] rest := by
  have hle : rest.length ≤ (chunk ++ rest).length := by
    rw [List.length_append]
    omega
  exact .token hspace h hle .done

theorem scans_mark {c : Char} {token : Token} (hspace : isSpace c = false)
    (h : token? (c :: rest) = .ok (token, rest)) : Scans (c :: rest) [token] rest :=
  scans_token [] hspace h

theorem scans_newLine (level : Nat) (rest : List Char) : Scans (newLine level ++ rest) [] rest := by
  have hspaces : ∀ n, Scans (List.replicate n ' ' ++ rest) [] rest := by
    intro n
    induction n with
    | zero => exact .done
    | succ n ih => exact .space (by decide) ih
  exact .space (by decide) (hspaces _)

theorem scans_quote (text : String) (rest : List Char) :
    Scans (quote text.toList ++ rest) [.scalar (.string text)] rest := by
  let body := text.toList.flatMap escape ++ ['"']
  have hread : unquote? (body ++ rest) = some (text.toList, rest) := by
    rw [List.append_assoc]
    exact unquote?_flatMap_escape text.toList rest
  have htoken : token? ('"' :: (body ++ rest)) = .ok (.scalar (.string text), rest) := by
    rw [token?, hread]
    simp only [String.ofList_toList]
  exact scans_token body (by decide) htoken

theorem isSpace_of_isDigit {c : Char} (h : Text.isDigit c = true) : isSpace c = false := by
  by_contra hspace
  simp only [isSpace, Bool.not_eq_false, Bool.or_eq_true, decide_eq_true_eq] at hspace
  rcases hspace with ((rfl | rfl) | rfl) | rfl
  all_goals exact absurd h (by decide)

theorem scans_decimalInt {value : Int} (h : Number.fits value = true) (hrest : EndsNumeral rest) :
    Scans (Text.decimalInt value ++ rest) [.scalar (.number (.integer value))] rest := by
  have htoken := token?_decimalInt h hrest
  cases value with
  | ofNat n =>
    obtain ⟨c, digits, hcons, hdigits, -⟩ := Text.decimal_eq_cons n
    rw [Text.decimalInt, hcons] at htoken ⊢
    exact scans_token digits (isSpace_of_isDigit (hdigits c List.mem_cons_self)) htoken
  | negSucc n => exact scans_token (Text.decimal (n + 1)) (by decide) htoken

theorem scans_scalar {value : Scalar} (h : value.Integral) (hrest : EndsNumeral rest) :
    Scans (renderScalar value ++ rest) [.scalar value] rest := by
  cases value with
  | null => exact scans_token ['u', 'l', 'l'] (by decide) rfl
  | bool value =>
    cases value with
    | false => exact scans_token ['a', 'l', 's', 'e'] (by decide) rfl
    | true => exact scans_token ['r', 'u', 'e'] (by decide) rfl
  | number value =>
    cases value with
    | integer value => exact scans_decimalInt h hrest
    | float value => exact h.elim
  | string text => exact scans_quote text rest

mutual

/-- The tokens that a tree is written with. -/
def tokensOf : Node → List Token
  | .scalar value => [.scalar value]
  | .sequence [] => [.beginArray, .endArray]
  | .sequence (item :: rest) => .beginArray :: (tokensOf item ++ tokensOfItems rest)
  | .mapping [] => [.beginObject, .endObject]
  | .mapping ((key, value) :: rest) =>
    .beginObject :: .scalar (.string key) :: .colon :: (tokensOf value ++ tokensOfEntries rest)

/-- The tokens of the items after the first. -/
def tokensOfItems : List Node → List Token
  | [] => [.endArray]
  | item :: rest => .comma :: (tokensOf item ++ tokensOfItems rest)

/-- The tokens of the entries after the first. -/
def tokensOfEntries : List (String × Node) → List Token
  | [] => [.endObject]
  | (key, value) :: rest =>
    .comma :: .scalar (.string key) :: .colon :: (tokensOf value ++ tokensOfEntries rest)

end

/-- The text of a tree is scanned as its tokens, whatever follows that continues no numeral. -/
def Scannable (node : Node) : Prop :=
  ∀ level rest, EndsNumeral rest → Scans (pretty level node ++ rest) (tokensOf node) rest

theorem endsNumeral_prettyItems (level : Nat) (items : List Node) (rest : List Char) :
    EndsNumeral (prettyItems level items ++ rest) := by
  cases items <;> exact endsNumeral_cons (by decide) _

theorem endsNumeral_prettyEntries (level : Nat) (entries : Entries Node) (rest : List Char) :
    EndsNumeral (prettyEntries level entries ++ rest) := by
  cases entries <;> exact endsNumeral_cons (by decide) _

/-- A line with an item, and the lines after it. -/
theorem scans_itemLine {item : Node} {others : List Node} (hitem : Scannable item)
    (hothers : Scans (prettyItems level others ++ rest) (tokensOfItems others) rest) :
    Scans (newLine (level + 1) ++ (pretty (level + 1) item ++ (prettyItems level others ++ rest)))
      (tokensOf item ++ tokensOfItems others) rest := by
  have hend := endsNumeral_prettyItems level others rest
  exact (scans_newLine (level + 1) _).append ((hitem (level + 1) _ hend).append hothers)

theorem scans_prettyItems {items : List Node} (h : ∀ item ∈ items, Scannable item)
    (level : Nat) (rest : List Char) :
    Scans (prettyItems level items ++ rest) (tokensOfItems items) rest := by
  induction items with
  | nil =>
    rw [prettyItems, List.append_assoc]
    exact (scans_newLine level _).append (scans_mark (by decide) rfl)
  | cons item others ih =>
    obtain ⟨hitem, hothers⟩ := List.forall_mem_cons.1 h
    simp only [prettyItems, List.cons_append, List.append_assoc]
    exact (scans_mark (by decide) rfl).append (scans_itemLine hitem (ih hothers))

theorem scannable_sequence {items : List Node} (h : ∀ item ∈ items, Scannable item) :
    Scannable (.sequence items) := by
  intro level rest _
  cases items with
  | nil => exact (scans_mark (by decide) rfl).append (scans_mark (by decide) rfl)
  | cons item others =>
    obtain ⟨hitem, hothers⟩ := List.forall_mem_cons.1 h
    simp only [pretty, List.cons_append, List.append_assoc]
    exact (scans_mark (by decide) rfl).append
      (scans_itemLine hitem (scans_prettyItems hothers level rest))

/-- A line with an entry, and the lines after it. -/
theorem scans_entryLine {key : String} {value : Node} {others : Entries Node}
    (hvalue : Scannable value)
    (hothers : Scans (prettyEntries level others ++ rest) (tokensOfEntries others) rest) :
    Scans (newLine (level + 1) ++ (quote key.toList ++
        ':' :: ' ' :: (pretty (level + 1) value ++ (prettyEntries level others ++ rest))))
      (.scalar (.string key) :: .colon :: (tokensOf value ++ tokensOfEntries others)) rest := by
  have hend := endsNumeral_prettyEntries level others rest
  have hlater := (hvalue (level + 1) _ hend).append hothers
  have hspaced := Scans.space (by decide : isSpace ' ' = true) hlater
  exact (scans_newLine (level + 1) _).append
    ((scans_quote key _).append ((scans_mark (by decide) rfl).append hspaced))

theorem scans_prettyEntries {entries : Entries Node} (h : ∀ entry ∈ entries, Scannable entry.2)
    (level : Nat) (rest : List Char) :
    Scans (prettyEntries level entries ++ rest) (tokensOfEntries entries) rest := by
  induction entries with
  | nil =>
    rw [prettyEntries, List.append_assoc]
    exact (scans_newLine level _).append (scans_mark (by decide) rfl)
  | cons entry others ih =>
    obtain ⟨hvalue, hothers⟩ := List.forall_mem_cons.1 h
    simp only [prettyEntries, List.cons_append, List.append_assoc]
    exact (scans_mark (by decide) rfl).append (scans_entryLine hvalue (ih hothers))

theorem scannable_mapping {entries : Entries Node} (h : ∀ entry ∈ entries, Scannable entry.2) :
    Scannable (.mapping entries) := by
  intro level rest _
  cases entries with
  | nil => exact (scans_mark (by decide) rfl).append (scans_mark (by decide) rfl)
  | cons entry others =>
    obtain ⟨hvalue, hothers⟩ := List.forall_mem_cons.1 h
    simp only [pretty, List.cons_append, List.append_assoc]
    exact (scans_mark (by decide) rfl).append
      (scans_entryLine hvalue (scans_prettyEntries hothers level rest))

theorem scannable_of_integral {node : Node} (h : node.Integral) : Scannable node := by
  induction h with
  | scalar hvalue => exact fun _ _ hrest => scans_scalar hvalue hrest
  | sequence _ ih => exact scannable_sequence ih
  | mapping _ ih => exact scannable_mapping ih

/-- The text of a tree, to its last character, is that of its tokens. -/
theorem tokens_render {node : Node} (h : node.Integral) :
    tokens (render node).toList = .ok (tokensOf node) := by
  have hend : EndsNumeral ['\n'] := endsNumeral_cons (by decide) []
  have hscans := (scannable_of_integral h 0 _ hend).append (.space (by decide) .done)
  rw [List.append_nil] at hscans
  rw [render, String.toList_ofList]
  exact hscans.tokensFrom_eq (Nat.le_refl _)

end ApiTidy.Json
