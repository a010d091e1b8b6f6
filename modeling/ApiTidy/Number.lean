import ApiTidy.Binary64.Basic
import ApiTidy.Text.Numeral

/-!
The numbers of a document: exact integers and binary64 numbers. The two kinds are never equal, so a
document that says `1` differs from one that says `1.0`.
-/
namespace ApiTidy

/-- An exact integer or a binary64 number. -/
inductive Number where
  | integer (value : Int)
  | float (value : Binary64)
  deriving DecidableEq

namespace Number

/-- Whether an integer fits a signed or an unsigned word of sixty-four bits. -/
def fits (value : Int) : Bool := -0x8000000000000000 ≤ value && value < Text.wordLimit

/-- Equality of numbers of one kind; the two float zeros are equal. -/
def same : Number → Number → Bool
  | integer a, integer b => a = b
  | float a, float b => a.same b
  | _, _ => false

end Number
end ApiTidy
