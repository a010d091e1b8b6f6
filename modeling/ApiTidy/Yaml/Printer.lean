import ApiTidy.Binary64.Layout
import ApiTidy.Yaml.Style

/-!
Writing a tree as YAML. Collections are blocks indented by two spaces; a sequence under a key starts
in the column of the key. Every piece ends its last line.
-/
namespace ApiTidy.Yaml

/-- Exponents from -5 to 15 are written positionally, and no exponent carries a plus sign. -/
def floatLayout : Binary64.Layout := ⟨-5, 15, false⟩

def spaces (count : Nat) : List Char := List.replicate count ' '

/-- A number in upper-case hexadecimal digits, with leading zeros up to a width. -/
def hexadecimal : Nat → Nat → List Char
  | 0, _ => []
  | width + 1, n => hexadecimal width (n / 16) ++ [(Nat.digitChar (n % 16)).toUpper]

def escape (c : Char) : List Char :=
  if c = '"' || c = '\\' then ['\\', c]
  else if isPrintable c && !isBreak c then [c]
  else
    match c with
    | '\x00' => ['\\', '0']
    | '\x07' => ['\\', 'a']
    | '\x08' => ['\\', 'b']
    | '\t' => ['\\', 't']
    | '\n' => ['\\', 'n']
    | '\x0b' => ['\\', 'v']
    | '\x0c' => ['\\', 'f']
    | '\r' => ['\\', 'r']
    | '\x1b' => ['\\', 'e']
    | '\x85' => ['\\', 'N']
    | '\u2028' => ['\\', 'L']
    | '\u2029' => ['\\', 'P']
    | _ =>
      if c.toNat ≤ 0xFF then '\\' :: 'x' :: hexadecimal 2 c.toNat
      else '\\' :: 'u' :: hexadecimal 4 c.toNat

/-- The rest of a text between single quotes; at the start of a line it is indented. -/
def singleQuotedBody (indent : Nat) : Bool → List Char → List Char
  | atLine, [] => (if atLine then spaces indent else []) ++ ['\'']
  | atLine, c :: rest =>
    if isBreak c then c :: singleQuotedBody indent true rest
    else
      (if atLine then spaces indent else []) ++ (if c = '\'' then ['\'', '\''] else [c])
        ++ singleQuotedBody indent false rest

/-- The lines of a literal block; a line without text is not indented. -/
def literalBody (indent : Nat) : Bool → List Char → List Char
  | atLine, [] => if atLine then [] else ['\n']
  | atLine, c :: rest =>
    if isBreak c then c :: literalBody indent true rest
    else (if atLine then spaces indent else []) ++ c :: literalBody indent false rest

/-- The indicators of a literal block: the indentation if its first line does not show it, and how
many breaks end it. -/
def literalHeader (text : List Char) : List Char :=
  let indentation := if text.head?.any fun c => c = ' ' || isBreak c then ['2'] else []
  let chomping :=
    match text.reverse with
    | [] => ['-']
    | [last] => if isBreak last then ['+'] else ['-']
    | last :: before :: _ => if !isBreak last then ['-'] else if isBreak before then ['+'] else []
  '|' :: indentation ++ chomping

/-- A text in a style, with further lines indented by `indent`; literal blocks end their line. -/
def styled (indent : Nat) (text : List Char) : ScalarStyle → List Char
  | .plain => text
  | .singleQuoted => '\'' :: singleQuotedBody indent false text
  | .doubleQuoted => '"' :: text.flatMap escape ++ ['"']
  | .literal | .folded => literalHeader text ++ '\n' :: literalBody indent true text

def textLine (indent : Nat) (text : List Char) : List Char :=
  let style := ScalarStyle.ofText text
  styled indent text style ++ (if style = .literal then [] else ['\n'])

def scalarLine (indent : Nat) : Scalar → List Char
  | .null => "null\n".toList
  | .bool true => "true\n".toList
  | .bool false => "false\n".toList
  | .number (.integer value) => Text.decimalInt value ++ ['\n']
  | .number (.float value) => value.render floatLayout ++ ['\n']
  | .string text => textLine indent text.toList

/-- How many octets the encoding of a key may have that needs no mark in front of it. -/
def maxSimpleKey : Nat := 128

def isSimpleKey (key : String) : Bool :=
  !key.toList.any isBreak && key.utf8ByteSize ≤ maxSimpleKey

/-- How a value goes on after the colon of a key in the column `column`, and its own column. -/
def valueStart (column : Nat) : Node → List Char × Nat
  | .sequence (_ :: _) => ('\n' :: spaces column, column)
  | .mapping (_ :: _) => ('\n' :: spaces (column + 2), column + 2)
  | _ => ([' '], column + 2)

/-- A key with its colon and everything before its value. -/
def entryStart (column : Nat) (key : String) (value : Node) : List Char :=
  if isSimpleKey key then
    styled (column + 2) key.toList (.ofText key.toList) ++ ':' :: (valueStart column value).1
  else '?' :: ' ' :: textLine (column + 2) key.toList ++ spaces column ++ [':', ' ']

def valueColumn (column : Nat) (key : String) (value : Node) : Nat :=
  if isSimpleKey key then (valueStart column value).2 else column + 2

mutual

/-- A node whose first line goes on at a column. -/
def renderAt (column : Nat) : Node → List Char
  | .scalar value => scalarLine column value
  | .sequence [] => "[]\n".toList
  | .mapping [] => "\x7b\x7d\n".toList
  | .sequence (item :: rest) => '-' :: ' ' :: renderAt (column + 2) item ++ renderItems column rest
  | .mapping ((key, value) :: rest) =>
    entryStart column key value ++ renderAt (valueColumn column key value) value
      ++ renderEntries column rest

def renderItems (column : Nat) : List Node → List Char
  | [] => []
  | item :: rest =>
    spaces column ++ '-' :: ' ' :: renderAt (column + 2) item ++ renderItems column rest

def renderEntries (column : Nat) : List (String × Node) → List Char
  | [] => []
  | (key, value) :: rest =>
    spaces column ++ entryStart column key value ++ renderAt (valueColumn column key value) value
      ++ renderEntries column rest

end

def render (node : Node) : String :=
  match node with
  | .scalar value => String.ofList (scalarLine 2 value)
  | node => String.ofList (renderAt 0 node)

end ApiTidy.Yaml
