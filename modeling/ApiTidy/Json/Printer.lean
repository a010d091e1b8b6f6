import ApiTidy.Json.Numeral
import ApiTidy.Json.Quoted
import ApiTidy.Node.Basic

/-! Writing a tree as JSON, on one line or indented by two spaces. -/
namespace ApiTidy.Json

def renderScalar : Scalar → List Char
  | .null => ['n', 'u', 'l', 'l']
  | .bool true => ['t', 'r', 'u', 'e']
  | .bool false => ['f', 'a', 'l', 's', 'e']
  | .number value => renderNumber value
  | .string text => quote text.toList

mutual

/-- The tree without any space. -/
def compact : Node → List Char
  | .scalar value => renderScalar value
  | .sequence [] => ['[', ']']
  | .sequence (item :: rest) => '[' :: compact item ++ compactItems rest
  | .mapping [] => ['{', '}']
  | .mapping ((key, value) :: rest) =>
    '{' :: quote key.toList ++ ':' :: compact value ++ compactEntries rest

/-- The items after the first, with the closing bracket. -/
def compactItems : List Node → List Char
  | [] => [']']
  | item :: rest => ',' :: compact item ++ compactItems rest

/-- The entries after the first, with the closing brace. -/
def compactEntries : List (String × Node) → List Char
  | [] => ['}']
  | (key, value) :: rest =>
    ',' :: quote key.toList ++ ':' :: compact value ++ compactEntries rest

end

/-- A new line, indented by two spaces for each level. -/
def newLine (level : Nat) : List Char := '\n' :: List.replicate (2 * level) ' '

mutual

/-- The tree with one item or entry on a line. -/
def pretty (level : Nat) : Node → List Char
  | .scalar value => renderScalar value
  | .sequence [] => ['[', ']']
  | .sequence (item :: rest) =>
    '[' :: newLine (level + 1) ++ pretty (level + 1) item ++ prettyItems level rest
  | .mapping [] => ['{', '}']
  | .mapping ((key, value) :: rest) =>
    '{' :: newLine (level + 1) ++ quote key.toList ++ ':' :: ' ' :: pretty (level + 1) value
      ++ prettyEntries level rest

def prettyItems (level : Nat) : List Node → List Char
  | [] => newLine level ++ [']']
  | item :: rest =>
    ',' :: newLine (level + 1) ++ pretty (level + 1) item ++ prettyItems level rest

def prettyEntries (level : Nat) : List (String × Node) → List Char
  | [] => newLine level ++ ['}']
  | (key, value) :: rest =>
    ',' :: newLine (level + 1) ++ quote key.toList ++ ':' :: ' ' :: pretty (level + 1) value
      ++ prettyEntries level rest

end

def renderCompact (node : Node) : String := String.ofList (compact node)

/-- Indented JSON with a newline at its end. -/
def render (node : Node) : String := String.ofList (pretty 0 node ++ ['\n'])

end ApiTidy.Json
