/-! Natural numbers written with ASCII digits. -/
namespace ApiTidy.Text

/-- The value of a digit in a base up to sixteen; letters count in either case. -/
def digit? (base : Nat) (c : Char) : Option Nat :=
  let n := c.toNat
  let value :=
    if 0x30 ≤ n && n ≤ 0x39 then some (n - 0x30)
    else if 0x41 ≤ n && n ≤ 0x46 then some (n - 0x41 + 10)
    else if 0x61 ≤ n && n ≤ 0x66 then some (n - 0x61 + 10)
    else none
  value.filter (· < base)

def isDigit (c : Char) : Bool := 0x30 ≤ c.toNat && c.toNat ≤ 0x39

/-- The number that a run of digits denotes, continuing from the digits read so far. -/
def numeralFrom? (base : Nat) : Nat → List Char → Option Nat
  | value, [] => some value
  | value, c :: rest => do
    let d ← digit? base c
    numeralFrom? base (value * base + d) rest

def numeral? (base : Nat) : List Char → Option Nat
  | [] => none
  | digits => numeralFrom? base 0 digits

def decimal (n : Nat) : List Char := Nat.toDigits 10 n

/-- The least power of two that a machine word of sixty-four bits cannot hold. -/
def wordLimit : Nat := 0x10000000000000000

def decimalInt : Int → List Char
  | .ofNat n => decimal n
  | .negSucc n => '-' :: decimal (n + 1)

end ApiTidy.Text
