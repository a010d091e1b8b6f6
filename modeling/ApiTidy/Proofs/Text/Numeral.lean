import Mathlib.Data.List.Induction
import ApiTidy.Text.Numeral

/-!
Digits that a number is written with. A decimal numeral has no superfluous zero in front, and every
digit of a base up to sixteen is read back as its value. A numeral without a superfluous zero is the
decimal one of what it is read as.
-/
namespace ApiTidy.Text
variable {n : Nat}

theorem isDigit_of_mem_decimal {c : Char} (h : c ∈ decimal n) : isDigit c = true := by
  have hdigit : c.isDigit = true := Nat.isDigit_of_mem_toDigits (by decide) (by decide) h
  obtain ⟨hlow, hhigh⟩ := Bool.and_eq_true_iff.1 hdigit
  have hfrom : 0x30 ≤ c.toNat := UInt32.le_iff_toNat_le.1 (of_decide_eq_true hlow)
  have hto : c.toNat ≤ 0x39 := UInt32.le_iff_toNat_le.1 (of_decide_eq_true hhigh)
  simp [isDigit, hfrom, hto]

theorem decimal_ne_nil : decimal n ≠ [] := Nat.toDigits_ne_nil

theorem head?_decimal_ne_zero (h : 0 < n) : (decimal n).head? ≠ some '0' := by
  induction n using Nat.strongRecOn with
  | ind n ih =>
    by_cases hn : n < 10
    · rw [decimal, Nat.toDigits_of_lt_base hn]
      simp only [List.head?_cons, ne_eq, Option.some.injEq, Nat.digitChar_eq_zero]
      omega
    · have hfront := ih (n / 10) (by omega) (by omega)
      obtain ⟨c, rest, hdigits⟩ := List.exists_cons_of_ne_nil (decimal_ne_nil (n := n / 10))
      rw [hdigits] at hfront
      rw [decimal, Nat.toDigits_of_base_le (by decide) (by omega), ← decimal, hdigits]
      exact hfront

/-- A numeral starts with a digit, and only that of zero with a zero. -/
theorem decimal_eq_cons (n : Nat) : ∃ c digits, decimal n = c :: digits ∧
    (∀ d ∈ c :: digits, isDigit d = true) ∧ (c = '0' → digits = []) := by
  obtain ⟨c, digits, hcons⟩ := List.exists_cons_of_ne_nil (decimal_ne_nil (n := n))
  refine ⟨c, digits, hcons, ?_, ?_⟩
  · intro d hd
    rw [← hcons] at hd
    exact isDigit_of_mem_decimal hd
  · rintro rfl
    cases n with
    | zero => exact (List.cons.inj (hcons.symm.trans (Nat.toDigits_zero 10))).2
    | succ n =>
      have hhead := head?_decimal_ne_zero n.succ_pos
      rw [hcons] at hhead
      exact absurd rfl hhead

theorem digit?_digitChar {base : Nat} (hbase : base ≤ 16) (h : n < base) :
    digit? base (Nat.digitChar n) = some n := by
  have hdigits : ∀ k : Fin 16, digit? 16 (Nat.digitChar k) = some k.val := by decide
  have hsixteen := hdigits ⟨n, by omega⟩
  unfold digit? at hsixteen ⊢
  rw [Option.filter_eq_some_iff] at hsixteen ⊢
  exact ⟨hsixteen.1, decide_eq_true h⟩

theorem numeralFrom?_append (base value : Nat) (first second : List Char) :
    numeralFrom? base value (first ++ second) =
      (numeralFrom? base value first).bind fun found => numeralFrom? base found second := by
  induction first generalizing value with
  | nil => rfl
  | cons c rest ih =>
    rw [List.cons_append, numeralFrom?, numeralFrom?]
    cases digit? base c with
    | none => rfl
    | some d => exact ih (value * base + d)

/-- A decimal numeral is read back. -/
theorem numeral?_decimal (n : Nat) : numeral? 10 (decimal n) = some n := by
  have hread : numeralFrom? 10 0 (decimal n) = some n := by
    induction n using Nat.strongRecOn with
    | ind n ih =>
      by_cases hn : n < 10
      · rw [decimal, Nat.toDigits_of_lt_base hn, numeralFrom?, digit?_digitChar (by decide) hn]
        simp [numeralFrom?]
      · have hlast := digit?_digitChar (by decide : 10 ≤ 16) (Nat.mod_lt n (by decide : 0 < 10))
        rw [decimal, Nat.toDigits_of_base_le (by decide) (by omega), ← decimal,
          numeralFrom?_append, ih (n / 10) (by omega), Option.bind_some, numeralFrom?, hlast]
        simp [numeralFrom?]
        omega
  obtain ⟨c, digits, hcons⟩ := List.exists_cons_of_ne_nil (decimal_ne_nil (n := n))
  rw [hcons] at hread ⊢
  exact hread

/-- A decimal digit is the one that its value is written with. -/
theorem digitChar_of_digit? {c : Char} {value : Nat} (h : digit? 10 c = some value) :
    value < 10 ∧ Nat.digitChar value = c := by
  obtain ⟨hread, hlt⟩ := Option.filter_eq_some_iff.1 h
  have hvalue : value < 10 := of_decide_eq_true hlt
  refine ⟨hvalue, Char.toNat_inj.1 ?_⟩
  rw [Nat.toNat_digitChar_of_lt_ten hvalue]
  split at hread
  next hdigit =>
    have hfrom : 0x30 ≤ c.toNat := of_decide_eq_true (Bool.and_eq_true_iff.1 hdigit).1
    have hsub : c.toNat - 0x30 = value := Option.some.inj hread
    omega
  next =>
    split at hread
    next =>
      have hadd : c.toNat - 0x41 + 10 = value := Option.some.inj hread
      omega
    next =>
      split at hread
      next =>
        have hadd : c.toNat - 0x61 + 10 = value := Option.some.inj hread
        omega
      next => simp at hread

/-- A numeral with no superfluous zero in front is the decimal one of its number. -/
theorem decimal_of_numeral? {digits : List Char} (h : numeral? 10 digits = some n)
    (hzero : digits.head? = some '0' → digits = ['0']) : decimal n = digits := by
  induction digits using List.reverseRecOn generalizing n with
  | nil => simp [numeral?] at h
  | append_singleton front c ih =>
    have hread : numeralFrom? 10 0 (front ++ [c]) = some n := by cases front <;> exact h
    rw [numeralFrom?_append] at hread
    obtain ⟨value, hfront, hlast⟩ := Option.bind_eq_some_iff.1 hread
    obtain ⟨digit, hdigit, hsum⟩ := Option.bind_eq_some_iff.1 hlast
    obtain ⟨hlt, hc⟩ := digitChar_of_digit? hdigit
    obtain rfl : value * 10 + digit = n := Option.some.inj hsum
    cases front with
    | nil =>
      obtain rfl : 0 = value := Option.some.inj hfront
      rw [Nat.zero_mul, Nat.zero_add, decimal, Nat.toDigits_of_lt_base hlt, hc, List.nil_append]
    | cons first rest =>
      have hfirst : first ≠ '0' := by
        rintro rfl
        simpa using hzero rfl
      have hdecimal := ih hfront fun hhead => absurd (Option.some.inj hhead) hfirst
      have hpos : 0 < value := by
        refine Nat.pos_of_ne_zero ?_
        rintro rfl
        exact hfirst (List.cons.inj hdecimal).1.symm
      have hquotient : (value * 10 + digit) / 10 = value := by omega
      have hremainder : (value * 10 + digit) % 10 = digit := by omega
      rw [decimal, Nat.toDigits_of_base_le (by decide) (by omega), ← decimal, hquotient, hremainder,
        hdecimal, hc]

theorem isDigit_of_numeralFrom? {digits : List Char} {value n : Nat}
    (h : numeralFrom? 10 value digits = some n) : digits.all isDigit = true := by
  induction digits generalizing value with
  | nil => rfl
  | cons c rest ih =>
    obtain ⟨digit, hdigit, hrest⟩ := Option.bind_eq_some_iff.1 h
    obtain ⟨hlt, rfl⟩ := digitChar_of_digit? hdigit
    have hchar : isDigit (Nat.digitChar digit) = true := by
      simp [isDigit, Nat.toNat_digitChar_of_lt_ten hlt]
      omega
    rw [List.all_cons, hchar, ih hrest]
    rfl

end ApiTidy.Text
