import ApiTidy.Binary64.Basic

/-!
Binary64 numbers from decimal notation, in two ways: the nearest number to the written value, and
the value obtained in binary64 arithmetic from the significand and a rounded power of ten. The
second can miss the nearest number by its last digit.
-/
namespace ApiTidy.Binary64

/-- The number nearest to `digits · 10 ^ exponent`; none if it exceeds all finite numbers. -/
def ofDecimal? (negative : Bool) (digits : Nat) (exponent : Int) : Option Binary64 :=
  if digits = 0 then some (zero negative) else
  let magnitude : Int := (Nat.toDigits 10 digits).length + exponent
  if 310 < magnitude then none
  else if magnitude < -330 then some (zero negative)
  else if 0 ≤ exponent then ofRatio? negative (digits * Nat.pow 10 exponent.toNat) 1
  else ofRatio? negative digits (Nat.pow 10 (-exponent).toNat)

/-- The rounded power of ten, for exponents up to 308. -/
def powerOfTen? (exponent : Nat) : Option Binary64 := ofRatio? false (Nat.pow 10 exponent) 1

/-- Divide by `10 ^ exponent`, by at most `10 ^ 308` at a time. -/
def divPowerOfTen? (x : Binary64) (exponent : Nat) : Option Binary64 :=
  if exponent ≤ 308 then do x.div? (← powerOfTen? exponent)
  else if x.isZero then some x
  else do (← x.div? (← powerOfTen? 308)).divPowerOfTen? (exponent - 308)
termination_by exponent

/-- Multiply by `10 ^ exponent`; only zero can be scaled by more than `10 ^ 308`. -/
def mulPowerOfTen? (x : Binary64) (exponent : Nat) : Option Binary64 :=
  if exponent ≤ 308 then do x.mul? (← powerOfTen? exponent)
  else if x.isZero then some x
  else none

/-- `significand · 10 ^ exponent` in binary64 arithmetic; none on overflow. -/
def scaled? (negative : Bool) (significand : Nat) (exponent : Int) : Option Binary64 := do
  let x ← ofRatio? negative significand 1
  if 0 ≤ exponent then x.mulPowerOfTen? exponent.toNat
  else x.divPowerOfTen? (-exponent).toNat

end ApiTidy.Binary64
