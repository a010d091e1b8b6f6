import ApiTidy.Binary64.Shortest
import ApiTidy.Text.Numeral
import ApiTidy.Text.Split

/-! How a binary64 number is written with its shortest digits. -/
namespace ApiTidy.Binary64

/-- The choices of a layout: the decimal exponents written positionally, and whether a positive
exponent carries its sign. -/
structure Layout where
  leastPositional : Int
  mostPositional : Int
  signPositiveExponent : Bool

/-- The digits of the shortest notation without trailing zeros, and the exponent of the first. -/
def leadingDigits (x : Binary64) : List Char × Int :=
  let (digits, exponent) := x.shortest
  let written := Text.decimal digits
  (Text.dropEnd (· = '0') written, exponent + (written.length : Int) - 1)

/-- Positional notation always has a digit after the point. -/
def positional (digits : List Char) (exponent : Int) : List Char :=
  if exponent < 0 then
    '0' :: '.' :: (List.replicate (-exponent - 1).toNat '0' ++ digits)
  else
    let whole := exponent.toNat + 1
    if digits.length ≤ whole then
      digits ++ List.replicate (whole - digits.length) '0' ++ ['.', '0']
    else digits.take whole ++ '.' :: digits.drop whole

/-- Scientific notation has one digit before the point, and a point only if more digits follow. -/
def scientific (signPositive : Bool) (digits : List Char) (exponent : Int) : List Char :=
  let mantissa :=
    match digits with
    | first :: second :: rest => first :: '.' :: second :: rest
    | few => few
  let sign := if exponent < 0 then ['-'] else if signPositive then ['+'] else []
  mantissa ++ 'e' :: sign ++ Text.decimal exponent.natAbs

/-- The text of a number. Zero, which has no first digit, is written `0.0`. -/
def render (layout : Layout) (x : Binary64) : List Char :=
  let sign := if x.negative then ['-'] else []
  if x.isZero then sign ++ ['0', '.', '0'] else
  let (digits, exponent) := x.leadingDigits
  if layout.leastPositional ≤ exponent && exponent ≤ layout.mostPositional then
    sign ++ positional digits exponent
  else sign ++ scientific layout.signPositiveExponent digits exponent

end ApiTidy.Binary64
