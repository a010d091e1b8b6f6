import ApiTidy.Binary64.Decimal
import ApiTidy.Node.Basic
import ApiTidy.Yaml.Fault

/-!
What a plain scalar means. The spellings of null, of the two booleans and of numbers are fixed;
everything else is text, and so is a decimal integer with a superfluous leading zero.
-/
namespace ApiTidy.Yaml

/-- What a scalar stands for. -/
inductive Meaning where
  | null
  | bool (value : Bool)
  | integer (value : Int)
  | float (value : Binary64)
  /-- An infinity, or no number at all. -/
  | notFinite
  | text
  deriving DecidableEq

/-- The spellings of null that are not empty. -/
def isNullWord (text : String) : Bool :=
  text = "null" || text = "Null" || text = "NULL" || text = "~"

def boolWord? (text : String) : Option Bool :=
  if text = "true" || text = "True" || text = "TRUE" then some true
  else if text = "false" || text = "False" || text = "FALSE" then some false
  else none

/-- Digits only, of which the first is a zero that could be left out. -/
def hasLeadingZero : List Char → Bool
  | '0' :: c :: rest => (c :: rest).all Text.isDigit
  | _ => false

/-- An integer without sign: decimal, or in a base that its start names. -/
def magnitude? : List Char → Option Nat
  | '0' :: 'x' :: digits => Text.numeral? 16 digits
  | '0' :: 'o' :: digits => Text.numeral? 8 digits
  | '0' :: 'b' :: digits => Text.numeral? 2 digits
  | digits => if hasLeadingZero digits then none else Text.numeral? 10 digits

def signedLimit : Nat := 0x80000000000000000000000000000000

/-- An integer of at most 128 bits, signed if it is negative. -/
def integer? : List Char → Option Int
  | '-' :: rest => (magnitude? rest).bind fun n => if n ≤ signedLimit then some (-n) else none
  | '+' :: rest => (magnitude? rest).bind fun n => if n < 2 * signedLimit then some n else none
  | text => (magnitude? text).bind fun n => if n < 2 * signedLimit then some n else none

/-- The digits after an optional point, and what follows them. -/
def fractionDigits : List Char → List Char × List Char
  | '.' :: rest => rest.span Text.isDigit
  | rest => ([], rest)

/-- An exponent with its letter; nothing at all is the exponent zero. -/
def exponent? : List Char → Option Int
  | [] => some 0
  | c :: rest =>
    if c ≠ 'e' && c ≠ 'E' then none
    else
      match rest with
      | '-' :: digits => (Text.numeral? 10 digits).map fun n => -n
      | '+' :: digits => (Text.numeral? 10 digits).map fun n => n
      | digits => (Text.numeral? 10 digits).map fun n => n

/-- The finite number nearest to decimal digits with an optional point and exponent. -/
def decimal? (negative : Bool) (text : List Char) : Option Binary64 := do
  let (whole, rest) := text.span Text.isDigit
  let (fraction, rest) := fractionDigits rest
  let exponent ← exponent? rest
  let digits ← Text.numeral? 10 (whole ++ fraction)
  Binary64.ofDecimal? negative digits (exponent - fraction.length)

def isInfinityWord (text : List Char) : Bool :=
  text = ".inf".toList || text = ".Inf".toList || text = ".INF".toList

def isNotNumberWord (text : List Char) : Bool :=
  text = ".nan".toList || text = ".NaN".toList || text = ".NAN".toList

def float? (text : List Char) : Option Meaning :=
  let (negative, unsigned) :=
    match text with
    | '-' :: rest => (true, rest)
    | '+' :: rest => (false, rest)
    | rest => (false, rest)
  if isInfinityWord unsigned || isNotNumberWord text then some .notFinite
  else (decimal? negative unsigned).map .float

/-- Digits with a superfluous zero, after an optional sign. -/
def isZeroLed : List Char → Bool
  | '-' :: rest => hasLeadingZero rest
  | '+' :: rest => hasLeadingZero rest
  | text => hasLeadingZero text

def Meaning.ofPlain (text : String) : Meaning :=
  if text.isEmpty || isNullWord text then .null
  else
    match boolWord? text, integer? text.toList with
    | some value, _ => .bool value
    | none, some value => .integer value
    | none, none =>
      if isZeroLed text.toList then .text else (float? text.toList).getD .text

/-- The scalar of a tree with a meaning; a float that is not finite has no place in it. -/
def Meaning.toScalar (text : String) : Meaning → Except Fault Scalar
  | .null => .ok .null
  | .bool value => .ok (.bool value)
  | .integer value =>
    if Number.fits value then .ok (.number (.integer value)) else .error .tooLargeInteger
  | .float value => .ok (.number (.float value))
  | .notFinite => .ok .null
  | .text => .ok (.string text)

end ApiTidy.Yaml
