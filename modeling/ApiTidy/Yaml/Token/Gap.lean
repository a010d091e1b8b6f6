import ApiTidy.Yaml.Token

/-!
The gaps between the words of a scalar. Blanks on a line stand for themselves. A single line feed
stands for a space; of several breaks the first, if it is a line feed, is left out.
-/
namespace ApiTidy.Yaml

/-- What was read since the last word. The lists are in reverse order. -/
inductive Gap where
  | none
  /-- Blanks on the line of the word. -/
  | blanks (reversed : List Char)
  /-- A first break, which an escape may have hidden, and further ones. -/
  | lines (first : Option Char) (reversed : List Char)

namespace Gap

def hasBreak : Gap → Bool
  | lines _ _ => true
  | _ => false

def isNone : Gap → Bool
  | none => true
  | _ => false

/-- Blanks next to a break are dropped. -/
def addBlank (c : Char) : Gap → Gap
  | none => blanks [c]
  | blanks cs => blanks (c :: cs)
  | lines first more => lines first more

def addBreak (c : Char) : Gap → Gap
  | lines first more => lines first (c :: more)
  | _ => lines (some c) []

/-- The text that the gap stands for, in reverse order. -/
def reversed : Gap → List Char
  | none => []
  | blanks cs => cs
  | lines (some '\n') [] => [' ']
  | lines (some '\n') more => more
  | lines first more => more ++ first.toList

end Gap
end ApiTidy.Yaml
