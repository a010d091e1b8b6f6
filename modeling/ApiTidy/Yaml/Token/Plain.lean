import ApiTidy.Yaml.Token.Gap

/-! Plain scalars: words without quotes, possibly on several lines. -/
namespace ApiTidy.Yaml

/-- A scalar and whether a line ended after its last word. -/
structure PlainScalar where
  text : List Char
  endsLine : Bool

/-- Whether a word cannot go on at a colon: a blank follows it. -/
def isValueMark : List Char → Bool
  | ':' :: rest => endsWord rest
  | _ => false

def isColonBeforeIndicator : List Char → Bool
  | ':' :: c :: _ => isFlowIndicator c || c = '?'
  | _ => false

/-- Whether a plain scalar ends before a word that starts here: on a line that is not indented
enough, at a document mark or at a comment. -/
def endsBeforeWord (flow : Bool) (indent : Nat) (p : Position) (text : List Char) : Bool :=
  (!flow && p.column < indent) || (p.column = 0 && isDocumentMark text) || text.head? = some '#'

def endsWithinWord (flow : Bool) (text : List Char) : Bool :=
  isValueMark text || (flow && text.head?.any isFlowIndicator)

/-- The rest of a plain scalar after `done`, which is in reverse order, and a gap. Its lines are
indented by `indent` columns, unless it is in a flow collection. -/
def plainFrom (flow : Bool) (indent : Nat) :
    List Char → Gap → Position → List Char → Except Fault (PlainScalar × Cursor)
  | done, gap, p, [] => .ok (⟨done.reverse, gap.hasBreak⟩, ⟨[], p⟩)
  | done, gap, p, c :: rest =>
    if isBlank c then
      if c = '\t' && gap.hasBreak && p.column < indent then .error .tabAsIndent
      else plainFrom flow indent done (gap.addBlank c) (p.past c) rest
    else if isBreak c then plainFrom flow indent done (gap.addBreak c) (p.past c) rest
    else if !gap.isNone && endsBeforeWord flow indent p (c :: rest) then
      .ok (⟨done.reverse, gap.hasBreak⟩, ⟨c :: rest, p⟩)
    else if flow && isColonBeforeIndicator (c :: rest) then .error .colonInFlowWord
    else if endsWithinWord flow (c :: rest) then
      .ok (⟨done.reverse, gap.hasBreak⟩, ⟨c :: rest, p⟩)
    else plainFrom flow indent (c :: (gap.reversed ++ done)) .none (p.past c) rest

def plain (flow : Bool) (indent : Nat) (cursor : Cursor) : Except Fault (PlainScalar × Cursor) :=
  plainFrom flow indent [] .none cursor.position cursor.rest

end ApiTidy.Yaml
