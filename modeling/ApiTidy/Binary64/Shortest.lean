import ApiTidy.Binary64.Basic

/-!
The shortest decimal notation that reads back as a binary64 number: among the decimal grids `10 ^ k`
the coarsest one with a point that rounds to the number, and on it the point nearest to the number.
-/
namespace ApiTidy.Binary64

/-- The numbers that round to `value / den` lie between `low / den` and `high / den`. -/
structure Rounding where
  low : Nat
  value : Nat
  high : Nat
  den : Nat
  closed : Bool

/-- The interval of the numbers that round to a positive `|x|`; the ends belong to it if the
significand is even. -/
def rounding (x : Binary64) : Rounding :=
  let up := 1 <<< x.scale.toNat
  let below := if x.fraction.val = 0 && 1 < x.exponent.val then 1 else 2
  { low := (4 * x.significand - below) * up
    value := 4 * x.significand * up
    high := (4 * x.significand + 2) * up
    den := 4 <<< (-x.scale).toNat
    closed := x.significand % 2 = 0 }

/-- `point · 10 ^ k` and `value / den` over a common denominator. -/
def Rounding.onGrid (r : Rounding) (k : Int) (point : Nat) : Nat :=
  if 0 ≤ k then point * Nat.pow 10 k.toNat * r.den else point * r.den

/-- A bound of the interval, scaled to be compared with `onGrid`. -/
def Rounding.scaled (k : Int) (bound : Nat) : Nat :=
  if 0 ≤ k then bound else bound * Nat.pow 10 (-k).toNat

def Rounding.contains (r : Rounding) (k : Int) (point : Nat) : Bool :=
  let p := r.onGrid k point
  let low := Rounding.scaled k r.low
  let high := Rounding.scaled k r.high
  if r.closed then low ≤ p && p ≤ high else low < p && p < high

/-- The point of the grid `10 ^ k` that is to stand for the number, if one rounds to it. -/
def Rounding.pointOn? (r : Rounding) (k : Int) : Option Nat :=
  let value := Rounding.scaled k r.value
  let below := value / r.onGrid k 1
  let above := below + 1
  match r.contains k below && below != 0, r.contains k above with
  | true, true =>
    let down := value - r.onGrid k below
    let up := r.onGrid k above - value
    if down < up then some below
    else if up < down then some above
    else some (if below % 2 = 0 then below else above)
  | true, false => some below
  | false, true => some above
  | false, false => none

/-- The first grid with a point that rounds to the number, from `10 ^ k` down. -/
def Rounding.search (r : Rounding) : Nat → Int → Nat × Int
  | 0, k => ((r.pointOn? k).getD 0, k)
  | n + 1, k =>
    match r.pointOn? k with
    | some point => (point, k)
    | none => r.search n (k - 1)

/-- Digits and exponent of the shortest notation: `|x|` is read from `digits · 10 ^ exponent`. -/
def shortest (x : Binary64) : Nat × Int :=
  let bits : Int := x.scale + x.significand.log2 + 1
  let top : Int := if 0 ≤ bits then bits * 30103 / 100000 + 1 else bits * 30102 / 100000 + 1
  x.rounding.search 20 top

end ApiTidy.Binary64
