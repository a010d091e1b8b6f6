/-!
Finite binary64 numbers, held by the fields of their encoding, so that the type has exactly one
value for each finite number and sign of zero. All arithmetic is exact on natural numbers and rounds
once, to the nearest number and to the even one of two equally near.
-/
namespace ApiTidy

/-- How many fractions there are for each exponent: two to the power of 52. -/
abbrev Binary64.fractionCount : Nat := 0x10000000000000

structure Binary64 where
  negative : Bool
  exponent : Fin 2047
  fraction : Fin Binary64.fractionCount
  deriving DecidableEq

namespace Binary64

def zero (negative : Bool) : Binary64 := ⟨negative, ⟨0, by decide⟩, ⟨0, by decide⟩⟩

def isZero (x : Binary64) : Bool := x.exponent.val = 0 && x.fraction.val = 0

/-- The integer significand: `|x| = significand · 2 ^ scale`. -/
def significand (x : Binary64) : Nat :=
  if x.exponent.val = 0 then x.fraction.val else fractionCount + x.fraction.val

/-- The power of two that the significand counts. -/
def scale (x : Binary64) : Int :=
  if x.exponent.val = 0 then -1074 else (x.exponent.val : Int) - 1075

def neg (x : Binary64) : Binary64 := { x with negative := !x.negative }

/-- Numeric equality: the two zeros are one number. -/
def same (x y : Binary64) : Bool := x = y || (x.isZero && y.isZero)

/-- The nearest integer to a quotient, the even one of two equally near. -/
def roundDiv (num den : Nat) : Nat :=
  let q := num / den
  let r := num % den
  if 2 * r < den then q
  else if den < 2 * r then q + 1
  else q + q % 2

/-- The largest `k` with `2 ^ k ≤ num / den`, for a positive quotient. -/
def floorLog2 (num den : Nat) : Int :=
  let k : Int := (num.log2 : Int) - (den.log2 : Int)
  let fits := if 0 ≤ k then den <<< k.toNat ≤ num else den ≤ num <<< (-k).toNat
  if fits then k else k - 1

/-- The magnitude whose fields, read as one number, are `magnitude`; none beyond the finite ones. -/
def ofMagnitude? (negative : Bool) (magnitude : Nat) : Option Binary64 :=
  if h : magnitude / fractionCount < 2047 then
    some ⟨negative, ⟨magnitude / fractionCount, h⟩,
      ⟨magnitude % fractionCount, Nat.mod_lt _ (by decide)⟩⟩
  else none

/-- The number nearest to `num / den`; none if it exceeds all finite numbers. -/
def ofRatio? (negative : Bool) (num den : Nat) : Option Binary64 :=
  if num = 0 then some (zero negative) else
  let q := max (-1074) (floorLog2 num den - 52)
  let digits :=
    if 0 ≤ q then roundDiv num (den <<< q.toNat) else roundDiv (num <<< (-q).toNat) den
  ofMagnitude? negative ((q + 1074).toNat * fractionCount + digits)

/-- `|x|` as a quotient of natural numbers. -/
def ratio (x : Binary64) : Nat × Nat :=
  if 0 ≤ x.scale then (x.significand <<< x.scale.toNat, 1)
  else (x.significand, 1 <<< (-x.scale).toNat)

def mul? (x y : Binary64) : Option Binary64 :=
  ofRatio? (x.negative != y.negative) (x.ratio.1 * y.ratio.1) (x.ratio.2 * y.ratio.2)

/-- The quotient by a number that is not zero. -/
def div? (x y : Binary64) : Option Binary64 :=
  ofRatio? (x.negative != y.negative) (x.ratio.1 * y.ratio.2) (x.ratio.2 * y.ratio.1)

end Binary64
end ApiTidy
