import ApiTidy.Text.Numeral
import ApiTidy.Yaml.Token.Gap

/-!
Quoted scalars. In single quotes only the quote itself is special, and is written twice; in double
quotes a backslash starts an escape.
-/
namespace ApiTidy.Yaml

/-- The rest of a single-quoted scalar after `done`, which is in reverse order, and a gap. -/
def singleQuotedFrom : List Char → Gap → Position → List Char → Except Fault (List Char × Cursor)
  | _, _, _, [] => .error .unfinishedQuote
  | done, gap, p, '\'' :: '\'' :: rest =>
    singleQuotedFrom ('\'' :: (gap.reversed ++ done)) .none (p.right 2) rest
  | done, gap, p, c :: rest =>
    if p.column = 0 && isDocumentMark (c :: rest) then .error .markInQuote
    else if c = '\'' then .ok ((gap.reversed ++ done).reverse, ⟨rest, p.right 1⟩)
    else if isBlank c then singleQuotedFrom done (gap.addBlank c) (p.past c) rest
    else if isBreak c then singleQuotedFrom done (gap.addBreak c) (p.past c) rest
    else singleQuotedFrom (c :: (gap.reversed ++ done)) .none (p.past c) rest

def simpleEscape? : Char → Option Char
  | '0' => some '\x00'
  | 'a' => some '\x07'
  | 'b' => some '\x08'
  | 't' => some '\t'
  | '\t' => some '\t'
  | 'n' => some '\n'
  | 'v' => some '\x0b'
  | 'f' => some '\x0c'
  | 'r' => some '\r'
  | 'e' => some '\x1b'
  | ' ' => some ' '
  | '"' => some '"'
  | '/' => some '/'
  | '\\' => some '\\'
  | 'N' => some '\x85'
  | '_' => some '\xa0'
  | 'L' => some '\u2028'
  | 'P' => some '\u2029'
  | _ => none

def codePoint? (digits : List Char) : Option Char := do
  let n ← Text.numeral? 16 digits
  if h : n.isValidChar then some (Char.ofNatAux n h) else none

def doubleQuotedFrom : List Char → Gap → Position → List Char → Except Fault (List Char × Cursor)
  | _, _, _, [] => .error .unfinishedQuote
  | done, gap, p, '\\' :: 'x' :: a :: b :: rest =>
    match codePoint? [a, b] with
    | some x => doubleQuotedFrom (x :: (gap.reversed ++ done)) .none (p.right 4) rest
    | none => .error .badEscape
  | done, gap, p, '\\' :: 'u' :: a :: b :: c :: d :: rest =>
    match codePoint? [a, b, c, d] with
    | some x => doubleQuotedFrom (x :: (gap.reversed ++ done)) .none (p.right 6) rest
    | none => .error .badEscape
  | done, gap, p, '\\' :: 'U' :: a :: b :: c :: d :: e :: f :: g :: h :: rest =>
    match codePoint? [a, b, c, d, e, f, g, h] with
    | some x => doubleQuotedFrom (x :: (gap.reversed ++ done)) .none (p.right 10) rest
    | none => .error .badEscape
  | done, gap, p, '\\' :: c :: rest =>
    if isBreak c then
      doubleQuotedFrom (gap.reversed ++ done) (.lines none []) (p.past c) rest
    else
      match simpleEscape? c with
      | some x => doubleQuotedFrom (x :: (gap.reversed ++ done)) .none (p.right 2) rest
      | none => .error .badEscape
  | done, gap, p, c :: rest =>
    if p.column = 0 && isDocumentMark (c :: rest) then .error .markInQuote
    else if c = '"' then .ok ((gap.reversed ++ done).reverse, ⟨rest, p.right 1⟩)
    else if c = '\\' then .error .unfinishedQuote
    else if isBlank c then doubleQuotedFrom done (gap.addBlank c) (p.past c) rest
    else if isBreak c then doubleQuotedFrom done (gap.addBreak c) (p.past c) rest
    else doubleQuotedFrom (c :: (gap.reversed ++ done)) .none (p.past c) rest

/-- The single-quoted scalar at the cursor, which stands on the quote. -/
def singleQuoted (cursor : Cursor) : Except Fault (List Char × Cursor) :=
  let inside := cursor.forward 1
  singleQuotedFrom [] .none inside.position inside.rest

/-- The double-quoted scalar at the cursor, which stands on the quote. -/
def doubleQuoted (cursor : Cursor) : Except Fault (List Char × Cursor) :=
  let inside := cursor.forward 1
  doubleQuotedFrom [] .none inside.position inside.rest

end ApiTidy.Yaml
