import ApiTidy.Text.Numeral

/-!
JSON strings. `quote` escapes the quotation mark, the backslash and the control characters and
writes everything else as it is; `unquote?` undoes every escape of the format and refuses raw
control characters and halves of a surrogate pair that stand alone.
-/
namespace ApiTidy.Json

/-- Four hexadecimal digits, in lower case. -/
def hex4 (n : Nat) : List Char :=
  [Nat.digitChar (n / 4096 % 16), Nat.digitChar (n / 256 % 16), Nat.digitChar (n / 16 % 16),
    Nat.digitChar (n % 16)]

def escape (c : Char) : List Char :=
  if c = '"' then ['\\', '"']
  else if c = '\\' then ['\\', '\\']
  else if c = '\x08' then ['\\', 'b']
  else if c = '\x0c' then ['\\', 'f']
  else if c = '\n' then ['\\', 'n']
  else if c = '\r' then ['\\', 'r']
  else if c = '\t' then ['\\', 't']
  else if c.toNat < 0x20 then '\\' :: 'u' :: hex4 c.toNat
  else [c]

def quote (text : List Char) : List Char :=
  '"' :: text.flatMap escape ++ ['"']

def unit? (a b c d : Char) : Option Nat := Text.numeral? 16 [a, b, c, d]

def simpleEscape? : Char → Option Char
  | '"' => some '"'
  | '\\' => some '\\'
  | '/' => some '/'
  | 'b' => some '\x08'
  | 'f' => some '\x0c'
  | 'n' => some '\n'
  | 'r' => some '\r'
  | 't' => some '\t'
  | _ => none

/-- The character that a surrogate pair stands for. -/
def pair? (high low : Nat) : Option Char :=
  if 0xDC00 ≤ low && low < 0xE000 then
    some (Char.ofNat (0x10000 + (high - 0xD800) * 0x400 + (low - 0xDC00)))
  else none

/-- The text up to the closing quotation mark, and what follows the mark. -/
def unquote? : List Char → Option (List Char × List Char)
  | [] => none
  | '"' :: rest => some ([], rest)
  | '\\' :: 'u' :: a :: b :: c :: d :: rest =>
    match unit? a b c d with
    | none => none
    | some high =>
      if 0xD800 ≤ high && high < 0xDC00 then
        match rest with
        | '\\' :: 'u' :: e :: f :: g :: h :: after =>
          match (unit? e f g h).bind (pair? high), unquote? after with
          | some x, some (text, left) => some (x :: text, left)
          | _, _ => none
        | _ => none
      else if 0xDC00 ≤ high && high < 0xE000 then none
      else (unquote? rest).map fun (text, left) => (Char.ofNat high :: text, left)
  | '\\' :: c :: rest =>
    match simpleEscape? c, unquote? rest with
    | some x, some (text, left) => some (x :: text, left)
    | _, _ => none
  | c :: rest =>
    if c = '\\' || c.toNat < 0x20 then none
    else (unquote? rest).map fun (text, left) => (c :: text, left)

end ApiTidy.Json
