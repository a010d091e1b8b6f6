import Mathlib.Data.List.TakeDrop
import ApiTidy.Json.Token
import ApiTidy.Proofs.Text.Numeral

/-!
JSON numerals of integers. What follows a numeral must not continue it; then an integer that fits a
word of sixty-four bits, signed or unsigned, is read back as it was written.
-/
namespace ApiTidy.Json
open Text (decimal decimalInt isDigit wordLimit)
variable {n : Nat} {rest : List Char}

/-- The text continues no numeral. -/
def EndsNumeral (text : List Char) : Prop :=
  ∀ c ∈ text.head?, isDigit c = false ∧ c ≠ '.' ∧ c ≠ 'e' ∧ c ≠ 'E'

theorem endsNumeral_cons {c : Char} (h : isDigit c = false ∧ c ≠ '.' ∧ c ≠ 'e' ∧ c ≠ 'E')
    (rest : List Char) : EndsNumeral (c :: rest) :=
  fun _ hc => Option.some.inj hc ▸ h

theorem digitRun_append {digits : List Char} (hdigits : ∀ c ∈ digits, isDigit c = true)
    (hrest : EndsNumeral rest) : digitRun (digits ++ rest) = (digits, rest) := by
  have hnone : rest.takeWhile isDigit = [] ∧ rest.dropWhile isDigit = rest := by
    cases rest with
    | nil => exact ⟨rfl, rfl⟩
    | cons c others => simp [(hrest c rfl).1]
  rw [digitRun, List.span_eq_takeWhile_dropWhile, List.takeWhile_append_of_pos hdigits,
    List.dropWhile_append_of_pos hdigits, hnone.1, hnone.2, List.append_nil]

theorem wholePart?_decimal (hrest : EndsNumeral rest) :
    wholePart? (decimal n ++ rest) = some (decimal n, rest) := by
  obtain ⟨c, digits, hcons, hdigits, hzero⟩ := Text.decimal_eq_cons n
  rw [hcons, List.cons_append]
  by_cases hc : c = '0'
  · rw [hc, hzero hc]
    rfl
  · obtain ⟨hfirst, hothers⟩ := List.forall_mem_cons.1 hdigits
    rw [wholePart?, if_pos hfirst, digitRun_append hothers hrest]
    exact hc

theorem fractionPart?_of_endsNumeral (h : EndsNumeral rest) :
    fractionPart? rest = some (none, rest) := by
  unfold fractionPart?
  split
  next => exact absurd rfl (h _ rfl).2.1
  next => rfl

theorem exponentPart?_of_endsNumeral (h : EndsNumeral rest) :
    exponentPart? rest = some (none, rest) := by
  unfold exponentPart?
  split
  next => exact absurd rfl (h _ rfl).2.2.1
  next => exact absurd rfl (h _ rfl).2.2.2
  next => rfl

theorem numeral?_decimal (hrest : EndsNumeral rest) :
    numeral? (decimal n ++ rest) = some (⟨false, decimal n, none, none⟩, rest) := by
  have hunsigned : ∀ others, decimal n ++ rest ≠ '-' :: others := by
    intro others heq
    obtain ⟨c, digits, hcons, hdigits, -⟩ := Text.decimal_eq_cons n
    rw [hcons] at heq
    obtain ⟨rfl, -⟩ := List.cons.inj heq
    exact absurd (hdigits _ List.mem_cons_self) (by decide)
  unfold numeral?
  split
  next negative unsigned hsign =>
    split at hsign
    next others heq => exact absurd heq (hunsigned others)
    next =>
      obtain ⟨rfl, rfl⟩ := Prod.mk.inj hsign
      simp [wholePart?_decimal hrest, fractionPart?_of_endsNumeral hrest,
        exponentPart?_of_endsNumeral hrest]

theorem numeral?_neg_decimal (hrest : EndsNumeral rest) :
    numeral? ('-' :: decimal n ++ rest) = some (⟨true, decimal n, none, none⟩, rest) := by
  simp [numeral?, wholePart?_decimal hrest, fractionPart?_of_endsNumeral hrest,
    exponentPart?_of_endsNumeral hrest]

theorem le_ofDigitChars (digits : List Char) (value : Nat) :
    value ≤ Nat.ofDigitChars 10 digits value := by
  induction digits generalizing value with
  | nil => exact Nat.le_refl _
  | cons c rest ih =>
    rw [Nat.ofDigitChars_cons]
    exact Nat.le_trans (by omega) (ih _)

/-- Digits whose number fits a word are all taken. -/
theorem accumulate_eq {digits : List Char} {value : Nat}
    (h : Nat.ofDigitChars 10 digits value < wordLimit) :
    accumulate value digits = (Nat.ofDigitChars 10 digits value, digits.length) := by
  induction digits generalizing value with
  | nil => rfl
  | cons c rest ih =>
    have hnext : value * 10 + (c.toNat - 0x30) = 10 * value + (c.toNat - '0'.toNat) :=
      congrArg (· + _) (Nat.mul_comm value 10)
    rw [Nat.ofDigitChars_cons] at h ⊢
    have hsmall := Nat.lt_of_le_of_lt (le_ofDigitChars rest _) h
    rw [accumulate, hnext, if_neg (Nat.not_le.2 hsmall), ih h]
    rfl

theorem accumulate_decimal (h : n < wordLimit) :
    accumulate 0 (decimal n) = (n, (decimal n).length) := by
  have hvalue : Nat.ofDigitChars 10 (decimal n) 0 = n :=
    Nat.ofDigitChars_toDigits (by decide) (by decide)
  rw [accumulate_eq (hvalue.symm ▸ h), hvalue]

theorem number?_decimal {negative : Bool} (h : n < wordLimit)
    (hsign : negative = true → 0 < n ∧ n ≤ 0x8000000000000000) :
    Numeral.number? ⟨negative, decimal n, none, none⟩ =
      some (.integer (if negative then -n else n)) := by
  have hexact : (!negative || (0 < n && n ≤ 0x8000000000000000)) = true := by
    cases negative with
    | false => rfl
    | true => simpa using hsign rfl
  simp [Numeral.number?, accumulate_decimal h, hexact]

theorem token?_of_numeral? {c : Char} {text left : List Char} {numeral : Numeral} {number : Number}
    (hc : c = '-' ∨ isDigit c = true) (h : numeral? (c :: text) = some (numeral, left))
    (hnumber : numeral.number? = some number) :
    token? (c :: text) = .ok (.scalar (.number number), left) := by
  have hstart : (c = '-' || isDigit c) = true := by simpa using hc
  have hother : ∀ d : Char, (d = '-' || isDigit d) = false → c ≠ d := by
    rintro d hd rfl
    exact absurd (hd.symm.trans hstart) Bool.false_ne_true
  rw [token?, if_pos hstart, h]
  · simp only [hnumber]
  case x_8 | x_9 | x_10 => exact fun _ hc _ => hother _ (by decide) hc
  all_goals exact hother _ (by decide)

theorem fits_iff {value : Int} :
    Number.fits value = true ↔ -0x8000000000000000 ≤ value ∧ value < wordLimit := by
  simp [Number.fits]

/-- An integer that fits a word is one token, and is read back as it was. -/
theorem token?_decimalInt {value : Int} (h : Number.fits value = true)
    (hrest : EndsNumeral rest) :
    token? (decimalInt value ++ rest) = .ok (.scalar (.number (.integer value)), rest) := by
  obtain ⟨hlow, hhigh⟩ := fits_iff.1 h
  cases value with
  | ofNat n =>
    have hword : n < wordLimit := by
      rw [Int.ofNat_eq_natCast] at hhigh
      omega
    obtain ⟨c, digits, hcons, hdigits, -⟩ := Text.decimal_eq_cons n
    have hnumeral := numeral?_decimal (n := n) hrest
    have hnumber : Numeral.number? ⟨false, decimal n, none, none⟩ = some (.integer n) :=
      number?_decimal hword fun h => nomatch h
    rw [decimalInt]
    rw [hcons] at hnumeral hnumber ⊢
    exact token?_of_numeral? (.inr (hdigits c List.mem_cons_self)) hnumeral hnumber
  | negSucc n =>
    have hsmall : n + 1 ≤ 0x8000000000000000 := by omega
    have hword : n + 1 < wordLimit := Nat.lt_of_le_of_lt hsmall (by decide)
    exact token?_of_numeral? (.inl rfl) (numeral?_neg_decimal hrest)
      (number?_decimal hword fun _ => ⟨n.succ_pos, hsmall⟩)

end ApiTidy.Json
