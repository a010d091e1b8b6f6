import ApiTidy.Proofs.Node
import ApiTidy.Proofs.Text.Numeral
import ApiTidy.Proofs.Yaml.Scalar
import ApiTidy.Yaml.Reader

/-!
How scalars are spelled and what their spelling means. A text whose spelling would mean something
else is quoted, so every scalar but a float is what its spelling says.
-/
namespace ApiTidy.Yaml
open Text (decimal decimalInt)

/-- The style in which a scalar is written. -/
def styleOf : Scalar → ScalarStyle
  | .string text => .ofText text.toList
  | _ => .plain

/-- What is written of a scalar. -/
def spelling : Scalar → List Char
  | .null => "null".toList
  | .bool true => "true".toList
  | .bool false => "false".toList
  | .number (.integer value) => decimalInt value
  | .number (.float value) => value.render floatLayout
  | .string text => text.toList

theorem scalarLine_eq (indent : Nat) (value : ApiTidy.Scalar) :
    scalarLine indent value = styledLine indent (spelling value) (styleOf value) := by
  cases value with
  | null => rfl
  | bool value => cases value <;> rfl
  | number value => cases value <;> rfl
  | string text => rfl

/-- A character of a word that is no mark inside it either. -/
def isWordCharacter (c : Char) : Bool :=
  isPrintable c && !isBreak c && c ≠ ' ' && c ≠ ':' && c ≠ '#'

theorem isWordCharacter_iff {c : Char} : isWordCharacter c = true ↔
    isPrintable c = true ∧ isBreak c = false ∧ c ≠ ' ' ∧ c ≠ ':' ∧ c ≠ '#' := by
  simp [isWordCharacter, and_assoc]

theorem hasInnerMark_of_word {text : List Char} (hword : ∀ c ∈ text, isWordCharacter c = true) :
    hasInnerMark text = false := by
  induction text with
  | nil => rfl
  | cons a others ih =>
    cases others with
    | nil => rfl
    | cons b more =>
      obtain ⟨-, -, -, hcolon, hsign⟩ := isWordCharacter_iff.1 (hword b (by simp))
      rw [hasInnerMark, ih fun c hc => hword c (List.mem_cons_of_mem a hc)]
      simp [hcolon, hsign]

/-- A word without marks in it needs no quotes unless it starts with one. -/
theorem fitsPlain_of_word {text : List Char} (hword : ∀ c ∈ text, isWordCharacter c = true)
    (hstart : startsWithMark text = false) : fitsPlain text = true := by
  have hshown : ∀ c ∈ text, isPrintable c = true ∧ isBreak c = false ∧ c ≠ ' ' := fun c hc =>
    have h := isWordCharacter_iff.1 (hword c hc)
    ⟨h.1, h.2.1, h.2.2.1⟩
  refine fitsPlain_iff.2 ⟨fun c hc => ⟨(hshown c hc).1, (hshown c hc).2.1⟩, ?_, ?_, hstart,
    hasInnerMark_of_word hword⟩
  · exact fun h => (hshown _ (List.mem_of_mem_head? h)).2.2 rfl
  · exact fun h => (hshown _ (List.mem_of_getLast? h)).2.2 rfl

theorem isWordCharacter_of_isDigit {c : Char} (h : Text.isDigit c = true) :
    isWordCharacter c = true := by
  have hne : ∀ d, Text.isDigit d = false → c ≠ d := by
    rintro d hd rfl
    rw [h] at hd
    cases hd
  refine isWordCharacter_iff.2 ⟨?_, ?_, hne ' ' (by decide), hne ':' (by decide), hne '#' (by decide)⟩
  · simp only [Text.isDigit, Bool.and_eq_true, decide_eq_true_eq] at h
    simp only [isPrintable, Bool.or_eq_true, decide_eq_true_eq, Bool.and_eq_true]
    omega
  · simp [isBreak, hne '\n' (by decide), hne '\r' (by decide), hne '\x85' (by decide),
      hne '\u2028' (by decide), hne '\u2029' (by decide)]

/-- Neither a digit nor a hyphen before one is a mark. -/
theorem startsWithMark_of_isDigit {c : Char} (h : Text.isDigit c = true) (others : List Char) :
    startsWithMark (c :: others) = false ∧ startsWithMark ('-' :: c :: others) = false := by
  have hmarks : ∀ d ∈ "#,[]\x7b\x7d&*!|>'\"%@`?:-.\t".toList, (!Text.isDigit d) = true :=
    List.all_eq_true.1 (by decide)
  have hfree : c ∉ "#,[]\x7b\x7d&*!|>'\"%@`?:-.\t".toList := by
    intro hmem
    simpa [h] using hmarks c hmem
  simp at hfree
  obtain ⟨-, hbreak, hspace, -⟩ := isWordCharacter_iff.1 (isWordCharacter_of_isDigit h)
  constructor
  · rw [startsWithMark]
    · simp [hfree]
    · exact fun _ hc => absurd hc (by simp [hfree])
    · exact fun _ hc => absurd hc (by simp [hfree])
  · rw [startsWithMark]
    · simp [endsWord, isBlank, hfree, hbreak, hspace]
    · exact fun _ _ hcons => absurd (List.cons.inj hcons).1 (by simp [hfree])
    · exact fun _ hc => absurd hc (by decide)

/-- Digits with a sign or without one need no quotes. -/
theorem fitsPlain_decimalInt (value : Int) : fitsPlain (decimalInt value) = true := by
  have hword : ∀ n, ∀ c ∈ decimal n, isWordCharacter c = true :=
    fun n c hc => isWordCharacter_of_isDigit (Text.isDigit_of_mem_decimal hc)
  cases value with
  | ofNat n =>
    obtain ⟨c, digits, hcons, hdigits, -⟩ := Text.decimal_eq_cons n
    refine fitsPlain_of_word (hword n) ?_
    rw [decimalInt, hcons]
    exact (startsWithMark_of_isDigit (hdigits c List.mem_cons_self) digits).1
  | negSucc n =>
    obtain ⟨c, digits, hcons, hdigits, -⟩ := Text.decimal_eq_cons (n + 1)
    refine fitsPlain_of_word (List.forall_mem_cons.2 ⟨by decide, hword (n + 1)⟩) ?_
    rw [decimalInt, hcons]
    exact (startsWithMark_of_isDigit (hdigits c List.mem_cons_self) digits).2

theorem holds_spelling {value : ApiTidy.Scalar} (h : value.Integral) :
    (styleOf value).Holds (spelling value) := by
  cases value with
  | null => exact ⟨fitsPlain_of_word (List.all_eq_true.1 (by decide)) (by simp [spelling, startsWithMark]), by decide⟩
  | bool value =>
    cases value
    · exact ⟨fitsPlain_of_word (List.all_eq_true.1 (by decide)) (by simp [spelling, startsWithMark]), by decide⟩
    · exact ⟨fitsPlain_of_word (List.all_eq_true.1 (by decide)) (by simp [spelling, startsWithMark]), by decide⟩
  | number value =>
    cases value with
    | integer value => 
      refine ⟨fitsPlain_decimalInt value, ?_⟩
      cases value with
      | ofNat n => exact Text.decimal_ne_nil
      | negSucc n => exact List.cons_ne_nil _ _
    | float value => cases h
  | string text => exact ScalarStyle.ofText_holds text.toList

theorem magnitude?_decimal (n : Nat) : magnitude? (decimal n) = some n := by
  obtain ⟨c, digits, hcons, -, hzero⟩ := Text.decimal_eq_cons n
  have hleading : hasLeadingZero (decimal n) = false := by
    rw [hcons]
    unfold hasLeadingZero
    split
    next heq =>
      obtain ⟨rfl, hdigits⟩ := List.cons.inj heq
      rw [hzero rfl] at hdigits
      cases hdigits
    next => rfl
  have hbase : ∀ letter rest, decimal n ≠ '0' :: letter :: rest := by
    intro letter rest heq
    obtain ⟨rfl, hdigits⟩ := List.cons.inj (hcons.symm.trans heq)
    rw [hzero rfl] at hdigits
    cases hdigits
  unfold magnitude?
  split
  next heq => exact absurd heq (hbase _ _)
  next heq => exact absurd heq (hbase _ _)
  next heq => exact absurd heq (hbase _ _)
  next => rw [hleading, if_neg Bool.false_ne_true, Text.numeral?_decimal]

theorem integer?_decimalInt {value : Int} (h : Number.fits value = true) :
    integer? (decimalInt value) = some value := by
  obtain ⟨hlow, hhigh⟩ := Bool.and_eq_true_iff.1 h
  cases value with
  | ofNat n =>
    obtain ⟨c, digits, hcons, hdigits, -⟩ := Text.decimal_eq_cons n
    have hsign : ∀ sign rest, Text.isDigit sign = false → decimal n ≠ sign :: rest := by
      intro sign rest hsign heq
      obtain ⟨rfl, -⟩ := List.cons.inj (hcons.symm.trans heq)
      rw [hdigits c List.mem_cons_self] at hsign
      cases hsign
    have hsmall : n < 2 * signedLimit := by
      have hfits : (n : Int) < 0x10000000000000000 := of_decide_eq_true hhigh
      rw [signedLimit]
      omega
    unfold integer? decimalInt
    split
    next heq => exact absurd heq (hsign _ _ (by decide))
    next heq => exact absurd heq (hsign _ _ (by decide))
    next => simp [magnitude?_decimal, hsmall]
  | negSucc n =>
    have hsmall : n + 1 ≤ signedLimit := by
      have hfits : -0x8000000000000000 ≤ Int.negSucc n := of_decide_eq_true hlow
      rw [signedLimit]
      omega
    simp [decimalInt, integer?, magnitude?_decimal, hsmall, Int.negSucc_eq]

/-- Digits are no word for null or a boolean. -/
theorem ofList_decimalInt_ne (value : Int) {word : String}
    (hword : word.toList.head?.all (fun c => !Text.isDigit c && c ≠ '-') = true) :
    String.ofList (decimalInt value) ≠ word := by
  rintro rfl
  rw [String.toList_ofList] at hword
  cases value with
  | ofNat n =>
    obtain ⟨c, digits, hcons, hdigits, -⟩ := Text.decimal_eq_cons n
    rw [decimalInt, hcons] at hword
    simp [hdigits c List.mem_cons_self] at hword
  | negSucc n => simp [decimalInt] at hword

theorem ofPlain_decimalInt {value : Int} (h : Number.fits value = true) :
    Meaning.ofPlain (String.ofList (decimalInt value)) = .integer value := by
  have hne : ∀ word : String, word.toList.head?.all (fun c => !Text.isDigit c && c ≠ '-') = true →
      String.ofList (decimalInt value) ≠ word := fun _ => ofList_decimalInt_ne value
  have hempty : (String.ofList (decimalInt value)).isEmpty = false := by
    simpa using hne "" (by simp)
  have hnull : isNullWord (String.ofList (decimalInt value)) = false := by
    simp [isNullWord, hne "null" (by decide), hne "Null" (by decide), hne "NULL" (by decide),
      hne "~" (by decide)]
  have hbool : boolWord? (String.ofList (decimalInt value)) = none := by
    simp [boolWord?, hne "true" (by decide), hne "True" (by decide), hne "TRUE" (by decide),
      hne "false" (by decide), hne "False" (by decide), hne "FALSE" (by decide)]
  rw [Meaning.ofPlain, hempty, hnull, hbool, String.toList_ofList, integer?_decimalInt h]
  rfl

/-- A scalar that is written without a tag is what its spelling means. -/
theorem untaggedScalar_spelling {value : ApiTidy.Scalar} (h : value.Integral) :
    untaggedScalar (styleOf value) (String.ofList (spelling value)) = .ok value := by
  cases value with
  | null => rfl
  | bool value => cases value <;> rfl
  | number value =>
    cases value with
    | integer value =>
      have hfits : Number.fits value = true := h
      show (Meaning.ofPlain (String.ofList (decimalInt value))).toScalar _ = _
      rw [ofPlain_decimalInt hfits, Meaning.toScalar, if_pos hfits]
    | float value => cases h
  | string text =>
    rcases ScalarStyle.ofText_cases text.toList with ⟨hstyle, -, -, hquotes⟩ | ⟨hstyle, -⟩ |
      hstyle | ⟨hstyle, -⟩
    · have hmeaning : Meaning.ofPlain text = .text := by
        simp [needsQuotes] at hquotes
        exact hquotes.1
      rw [untaggedScalar, styleOf, hstyle, if_pos rfl, spelling, String.ofList_toList, hmeaning]
      rfl
    all_goals
      rw [untaggedScalar, styleOf, hstyle, spelling, String.ofList_toList]
      rfl

end ApiTidy.Yaml
