import ApiTidy.Binary64.Decimal
import ApiTidy.Binary64.Layout
import ApiTidy.Number

/-!
JSON numerals. An integer literal that fits a word of sixty-four bits stays exact. Every other
numeral is a binary64 number, computed from as many leading digits as fit an unsigned word; `-0`
is the float that only a float can be.
-/
namespace ApiTidy.Json

/-- The parts of a numeral: sign, digits before and after the point, exponent. -/
structure Numeral where
  negative : Bool
  whole : List Char
  fraction : Option (List Char)
  exponent : Option (Bool × List Char)

/-- The longest run of digits at the front. -/
def digitRun (text : List Char) : List Char × List Char := text.span Text.isDigit

/-- The digits before the point: a zero alone, or a run that starts with another digit. -/
def wholePart? : List Char → Option (List Char × List Char)
  | '0' :: rest => some (['0'], rest)
  | c :: rest =>
    if Text.isDigit c then
      let (digits, left) := digitRun rest
      some (c :: digits, left)
    else none
  | [] => none

/-- The digits after a point; at least one must stand there. -/
def fractionPart? : List Char → Option (Option (List Char) × List Char)
  | '.' :: rest =>
    match digitRun rest with
    | ([], _) => none
    | (digits, left) => some (some digits, left)
  | text => some (none, text)

/-- The exponent after its letter: whether it is negative, and at least one digit. -/
def exponentDigits? (text : List Char) : Option (Option (Bool × List Char) × List Char) :=
  let (negative, unsigned) :=
    match text with
    | '-' :: rest => (true, rest)
    | '+' :: rest => (false, rest)
    | rest => (false, rest)
  match digitRun unsigned with
  | ([], _) => none
  | (digits, left) => some (some (negative, digits), left)

def exponentPart? : List Char → Option (Option (Bool × List Char) × List Char)
  | 'e' :: rest => exponentDigits? rest
  | 'E' :: rest => exponentDigits? rest
  | text => some (none, text)

/-- The longest numeral at the front of the text. -/
def numeral? (text : List Char) : Option (Numeral × List Char) := do
  let (negative, unsigned) :=
    match text with
    | '-' :: rest => (true, rest)
    | rest => (false, rest)
  let (whole, afterWhole) ← wholePart? unsigned
  let (fraction, afterFraction) ← fractionPart? afterWhole
  let (exponent, left) ← exponentPart? afterFraction
  return (⟨negative, whole, fraction, exponent⟩, left)

/-- Append digits to a number while it fits an unsigned word; the count says how many did. -/
def accumulate (value : Nat) : List Char → Nat × Nat
  | [] => (value, 0)
  | c :: rest =>
    let next := value * 10 + (c.toNat - 0x30)
    if Text.wordLimit ≤ next then (value, 0)
    else
      let (result, count) := accumulate next rest
      (result, count + 1)

/-- The largest exponent that is read as a number; a longer one only says zero or overflow. -/
def exponentLimit : Nat := 0x80000000

/-- A float from its significand, the exponent counted from its digits, and the written exponent. -/
def float? (negative : Bool) (significand : Nat) (counted : Int) :
    Option (Bool × List Char) → Option Binary64
  | none => Binary64.scaled? negative significand counted
  | some (down, digits) =>
    let written := (Text.numeral? 10 digits).getD 0
    if exponentLimit ≤ written then
      if significand = 0 || down then some (Binary64.zero negative) else none
    else
      Binary64.scaled? negative significand (if down then counted - written else counted + written)

/-- The number of a numeral; none if it exceeds all binary64 numbers. -/
def Numeral.number? (n : Numeral) : Option Number :=
  let (whole, kept) := accumulate 0 n.whole
  let dropped : Int := n.whole.length - kept
  match n.fraction, n.exponent with
  | none, none =>
    if dropped = 0 && (!n.negative || (0 < whole && whole ≤ 0x8000000000000000)) then
      some (.integer (if n.negative then -whole else whole))
    else (float? n.negative whole dropped none).map .float
  | none, exponent => (float? n.negative whole dropped exponent).map .float
  | some digits, exponent =>
    let (significand, count) := accumulate whole digits
    (float? n.negative significand (dropped - count) exponent).map .float

/-- Exponents from -5 to 15 are written positionally, and a positive exponent carries its sign. -/
def floatLayout : Binary64.Layout := ⟨-5, 15, true⟩

def renderNumber : Number → List Char
  | .integer value => Text.decimalInt value
  | .float value => value.render floatLayout

end ApiTidy.Json
