import ApiTidy.Text.Numeral
import ApiTidy.Yaml.Token

/-!
Block scalars: indented lines after a header. A literal scalar keeps its line breaks. A folded one
joins two lines with a space if neither starts with a blank.
-/
namespace ApiTidy.Yaml

/-- What happens to the breaks after the last line: all but the first, all, or none are dropped. -/
inductive Chomping where
  | clip | strip | keep
  deriving DecidableEq, Repr

structure BlockHeader where
  chomping : Chomping
  /-- How much further than their surroundings the lines are indented; else the first line tells. -/
  indentation : Option Nat
  deriving DecidableEq, Repr

/-- The chomping indicator at the front of the text, if there is one. -/
def chomping? : List Char → Option Chomping × List Char
  | '+' :: rest => (some .keep, rest)
  | '-' :: rest => (some .strip, rest)
  | text => (none, text)

/-- The indentation indicator at the front of the text, if there is one; it cannot be zero. -/
def indentation? : List Char → Except Fault (Option Nat × List Char)
  | [] => .ok (none, [])
  | c :: rest =>
    if c = '0' then .error .badBlockHeader
    else if Text.isDigit c then .ok (Text.digit? 10 c, rest)
    else .ok (none, c :: rest)

def blockHeader (text : List Char) : Except Fault (BlockHeader × List Char) := do
  match chomping? text with
  | (some chomping, rest) =>
    let (indentation, left) ← indentation? rest
    return (⟨chomping, indentation⟩, left)
  | (none, rest) =>
    match ← indentation? rest with
    | (none, left) => return (⟨.clip, none⟩, left)
    | (some n, left) =>
      let (chomping, left) := chomping? left
      return (⟨chomping.getD .clip, some n⟩, left)

/-- The rest of a line that may hold only blanks and a comment, and the start of the next. -/
def endOfLine (fault : Fault) (cursor : Cursor) : Except Fault Cursor :=
  let atText := cursor.past isBlank
  let atEnd :=
    if atText.rest.head? = some '#' then atText.past (!isBreak ·) else atText
  match atEnd.rest with
  | [] => .ok atEnd
  | c :: rest =>
    if isBreak c then .ok ⟨rest, atEnd.position.past c⟩ else .error fault

/-- The indentation of the next line with text, after empty lines. -/
structure Margin where
  /-- The breaks of the empty lines. -/
  breaks : List Char
  /-- The widest indentation of all these lines. -/
  widest : Nat
  cursor : Cursor

/-- Skip empty lines and indentation up to a limit, if it is known. -/
def margin (limit : Option Nat) : Nat → Position → List Char → Except Fault Margin
  | widest, p, [] => .ok ⟨[], max widest p.column, ⟨[], p⟩⟩
  | widest, p, c :: rest =>
    let inMargin := limit.all (p.column < ·)
    let widest := max widest p.column
    if c = ' ' && inMargin then margin limit widest (p.past c) rest
    else if c = '\t' && inMargin then .error .tabAsIndent
    else if isBreak c then
      (margin limit widest (p.past c) rest).map fun found =>
        { found with breaks := c :: found.breaks }
    else .ok ⟨[], widest, ⟨c :: rest, p⟩⟩

/-- What was read of a block scalar at the start of a line. -/
structure BlockLines where
  /-- The text in reverse order, without the break of its last line. -/
  done : List Char
  /-- The break of the last line, if there is a line and it ends. -/
  lastBreak : Option Char
  /-- Whether the last line starts with a blank. -/
  afterBlank : Bool
  /-- The breaks of the empty lines after it. -/
  emptyLines : List Char

/-- The text with everything up to a line that starts with `c`. -/
def BlockLines.joined (lines : BlockLines) (folded : Bool) (c : Char) : List Char :=
  let folds := folded && lines.lastBreak = some '\n' && !lines.afterBlank && !isBlank c
  let joint :=
    if !folds then lines.lastBreak.toList
    else if lines.emptyLines.isEmpty then [' '] else []
  lines.emptyLines.reverse ++ joint ++ lines.done

/-- The lines of a block scalar from a line on; each takes a character, so `fuel` may be the length
of the text. -/
def blockLinesFrom (folded : Bool) (indent : Nat) :
    Nat → BlockLines → Cursor → Except Fault (BlockLines × Cursor)
  | 0, lines, cursor => .ok (lines, cursor)
  | fuel + 1, lines, cursor =>
    match cursor.rest with
    | [] => .ok (lines, cursor)
    | c :: _ =>
      if cursor.column ≠ indent then .ok (lines, cursor)
      else
        let line := cursor.rest.takeWhile (!isBreak ·)
        let atBreak := cursor.past (!isBreak ·)
        let lastBreak := atBreak.rest.head?
        let next := lastBreak.elim atBreak.position atBreak.position.past
        match margin (some indent) 0 next atBreak.rest.tail with
        | .error fault => .error fault
        | .ok found =>
          blockLinesFrom folded indent fuel
            ⟨line.reverse ++ lines.joined folded c, lastBreak, isBlank c, found.breaks⟩
            found.cursor

/-- The breaks after the last line that a chomping keeps, in reverse order. -/
def BlockLines.tail (lines : BlockLines) : Chomping → List Char
  | .strip => []
  | .clip => lines.lastBreak.toList
  | .keep => lines.emptyLines.reverse ++ lines.lastBreak.toList

/-- The block scalar at the cursor, which stands on its indicator. `outer` is the indentation of the
collection around it, if there is one. -/
def blockScalar (folded : Bool) (outer : Option Nat) (cursor : Cursor) :
    Except Fault (List Char × Cursor) := do
  let atHeader := cursor.forward 1
  let (header, left) ← blockHeader atHeader.rest
  let cursor ← endOfLine .badBlockHeader
    (atHeader.forward (atHeader.rest.length - left.length))
  let given := header.indentation.map (outer.getD 0 + ·)
  let found ← margin given 0 cursor.position cursor.rest
  let indent := given.getD (max found.widest (max (outer.elim 0 (· + 1)) 1))
  let (lines, cursor) ← blockLinesFrom folded indent found.cursor.rest.length
    ⟨[], none, false, found.breaks⟩ found.cursor
  return ((lines.tail header.chomping ++ lines.done).reverse, cursor)

end ApiTidy.Yaml
