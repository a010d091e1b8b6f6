import ApiTidy.Yaml.Token.Plain
import ApiTidy.Yaml.Token.Property
import ApiTidy.Yaml.Token.Quoted

/-!
From text to tokens. Indentation opens and closes block collections. A key needs no mark in front of
it: a token that may start one is remembered, and when a colon follows on its line the marks of the
key, and of the mapping if this is its first key, are inserted before it.
-/
namespace ApiTidy.Yaml

/-- A token that may turn out to start a key. -/
structure KeyStart where
  /-- Whether nothing but a key may stand there. -/
  required : Bool
  /-- How many tokens precede it. -/
  index : Nat
  position : Position

namespace KeyStart

/-- How many octets after its start a key may end. -/
def maxLength : Nat := 1024

def isStale (start : KeyStart) (p : Position) : Bool :=
  start.position.line < p.line || start.position.octet + maxLength < p.octet

/-- The start, unless it is stale. -/
def refresh (p : Position) : Option KeyStart → Except Fault (Option KeyStart)
  | none => .ok none
  | some start =>
    if !start.isStale p then .ok (some start)
    else if start.required then .error .missingColon
    else .ok none

end KeyStart

/-- What was read of a text. -/
structure Lexer where
  cursor : Cursor
  tokens : Array Token
  /-- The columns of the open block collections, innermost first. -/
  indents : List Nat
  /-- Where a key may have started in the innermost flow collection, or outside all of them. -/
  keyStart : Option KeyStart
  /-- The same for the collections around that one; none outside flow collections. -/
  outer : List (Option KeyStart)
  /-- Whether a key may start at the next token. -/
  keyAllowed : Bool

namespace Lexer

def start (text : List Char) : Lexer := ⟨⟨text, .start⟩, #[], [], none, [], true⟩

def inFlow (s : Lexer) : Bool := !s.outer.isEmpty

/-- The least column that is further right than the innermost block collection. -/
def innerColumn (s : Lexer) : Nat := s.indents.head?.elim 0 (· + 1)

def push (s : Lexer) (token : Token) (cursor : Cursor) (keyAllowed : Bool) : Lexer :=
  { s with tokens := s.tokens.push token, cursor, keyAllowed }

def pushIndicator (s : Lexer) (token : Token) (length : Nat) (keyAllowed : Bool) : Lexer :=
  s.push token (s.cursor.forward length) keyAllowed

/-- Give up the remembered start of a key. -/
def forgetKey (s : Lexer) : Except Fault Lexer :=
  if s.keyStart.any (·.required) then .error .missingColon else .ok { s with keyStart := none }

/-- Remember that a key may start at the next token. -/
def rememberKey (s : Lexer) : Except Fault Lexer :=
  if !s.keyAllowed then .ok s
  else
    s.forgetKey.map fun s =>
      { s with
        keyStart := some
          { required := !s.inFlow && s.indents.head? = some s.cursor.column
            index := s.tokens.size
            position := s.cursor.position } }

def refreshKeys (s : Lexer) : Except Fault Lexer := do
  let keyStart ← KeyStart.refresh s.cursor.position s.keyStart
  let outer ← s.outer.mapM (KeyStart.refresh s.cursor.position)
  return { s with keyStart, outer }

/-- Close the block collections at the given column and further right. -/
def closeBlocks (s : Lexer) (column : Nat) : Lexer :=
  if s.inFlow then s
  else
    let closed := s.indents.takeWhile (column ≤ ·)
    { s with
      indents := s.indents.drop closed.length
      tokens := s.tokens ++ Array.replicate closed.length Token.blockEnd }

/-- Open a block collection whose first token is at `index`, if the column is further right than
that of the collection around it. -/
def openBlock (s : Lexer) (column index : Nat) (token : Token) : Lexer :=
  if s.inFlow || column < s.innerColumn then s
  else
    { s with
      indents := column :: s.indents
      tokens := s.tokens.insertIdxIfInBounds index token }

/-- Skip blanks, breaks and comments. Tabs may not stand where a key may start, unless in a flow
collection. The answer is whether a key may start now. -/
def skipSpace (inFlow : Bool) : Bool → Bool → Position → List Char → Bool × Cursor
  | keyAllowed, _, p, [] => (keyAllowed, ⟨[], p⟩)
  | keyAllowed, inComment, p, c :: rest =>
    if isBreak c then skipSpace inFlow (keyAllowed || !inFlow) false (p.past c) rest
    else if inComment || c = '#' then skipSpace inFlow keyAllowed true (p.past c) rest
    else if c = ' ' || (c = '\t' && (inFlow || !keyAllowed))
        || (c = byteOrderMark && p.column = 0) then
      skipSpace inFlow keyAllowed false (p.past c) rest
    else (keyAllowed, ⟨c :: rest, p⟩)

/-- Go to the next token and close the block collections that end before it. -/
def toToken (s : Lexer) : Except Fault Lexer :=
  let (keyAllowed, cursor) :=
    skipSpace s.inFlow s.keyAllowed false s.cursor.position s.cursor.rest
  { s with keyAllowed, cursor }.refreshKeys.map fun s => closeBlocks s (cursor.column + 1)

def leaveBlocks (s : Lexer) : Except Fault Lexer := (s.closeBlocks 0).forgetKey

def readDirective (s : Lexer) : Except Fault Lexer := do
  let s ← s.leaveBlocks
  let (token, cursor) ← directive s.cursor
  return s.push token cursor false

def readDocumentMark (s : Lexer) (token : Token) : Except Fault Lexer := do
  let s ← s.leaveBlocks
  return s.pushIndicator token 3 false

def openFlow (s : Lexer) (token : Token) : Except Fault Lexer := do
  let s ← s.rememberKey
  return { s.pushIndicator token 1 true with keyStart := none, outer := s.keyStart :: s.outer }

def closeFlow (s : Lexer) (token : Token) : Except Fault Lexer := do
  let s ← s.forgetKey
  let s := s.pushIndicator token 1 false
  match s.outer with
  | [] => return s
  | keyStart :: outer => return { s with keyStart, outer }

def readFlowEntry (s : Lexer) : Except Fault Lexer := do
  let s ← s.forgetKey
  return s.pushIndicator .flowEntry 1 true

def readBlockEntry (s : Lexer) : Except Fault Lexer := do
  if !s.inFlow && !s.keyAllowed then .error .entryNotAllowed
  else
    let s := s.openBlock s.cursor.column s.tokens.size .blockSequenceStart
    let s ← s.forgetKey
    return s.pushIndicator .blockEntry 1 true

def readKey (s : Lexer) : Except Fault Lexer := do
  if !s.inFlow && !s.keyAllowed then .error .keyNotAllowed
  else
    let s := s.openBlock s.cursor.column s.tokens.size .blockMappingStart
    let s ← s.forgetKey
    return s.pushIndicator .key 1 (!s.inFlow)

/-- Read the colon before a value, and mark the key before it if that has no mark. -/
def readValue (s : Lexer) : Except Fault Lexer :=
  match s.keyStart with
  | some start =>
    let s := { s with
      keyStart := none
      tokens := s.tokens.insertIdxIfInBounds start.index .key }
    let s := s.openBlock start.position.column start.index .blockMappingStart
    .ok (s.pushIndicator .value 1 false)
  | none =>
    if !s.inFlow && !s.keyAllowed then .error .valueNotAllowed
    else
      let s := s.openBlock s.cursor.column s.tokens.size .blockMappingStart
      .ok (s.pushIndicator .value 1 (!s.inFlow))

def readAlias (s : Lexer) : Except Fault Lexer := do
  let s ← s.rememberKey
  let (name, cursor) ← anchorName s.cursor
  return s.push (.aliased name) cursor false

def readAnchor (s : Lexer) : Except Fault Lexer := do
  let s ← s.rememberKey
  let (name, cursor) ← anchorName s.cursor
  return s.push (.anchor name) cursor false

def readTag (s : Lexer) : Except Fault Lexer := do
  let s ← s.rememberKey
  let ((handle, suffix), cursor) ← tag s.inFlow s.cursor
  return s.push (.tag handle suffix) cursor false

def readBlockScalar (s : Lexer) (style : ScalarStyle) : Except Fault Lexer := do
  let s ← s.forgetKey
  let (text, cursor) ← blockScalar (style = .folded) s.indents.head? s.cursor
  return s.push (.scalar style (String.ofList text)) cursor true

def readSingleQuoted (s : Lexer) : Except Fault Lexer := do
  let s ← s.rememberKey
  let (text, cursor) ← singleQuoted s.cursor
  return s.push (.scalar .singleQuoted (String.ofList text)) cursor false

def readDoubleQuoted (s : Lexer) : Except Fault Lexer := do
  let s ← s.rememberKey
  let (text, cursor) ← doubleQuoted s.cursor
  return s.push (.scalar .doubleQuoted (String.ofList text)) cursor false

def readPlain (s : Lexer) : Except Fault Lexer := do
  let s ← s.rememberKey
  let (scalar, cursor) ← plain s.inFlow s.innerColumn s.cursor
  return s.push (.scalar .plain (String.ofList scalar.text)) cursor scalar.endsLine

def readToken (s : Lexer) (c : Char) (rest : List Char) : Except Fault Lexer :=
  match c with
  | '[' => s.openFlow .flowSequenceStart
  | '{' => s.openFlow .flowMappingStart
  | ']' => s.closeFlow .flowSequenceEnd
  | '}' => s.closeFlow .flowMappingEnd
  | ',' => s.readFlowEntry
  | '-' => if endsWord rest then s.readBlockEntry else s.readPlain
  | '?' => if s.inFlow || endsWord rest then s.readKey else s.readPlain
  | ':' => if s.inFlow || endsWord rest then s.readValue else s.readPlain
  | '*' => s.readAlias
  | '&' => s.readAnchor
  | '!' => s.readTag
  | '|' => if s.inFlow then .error (.noToken c) else s.readBlockScalar .literal
  | '>' => if s.inFlow then .error (.noToken c) else s.readBlockScalar .folded
  | '\'' => s.readSingleQuoted
  | '"' => s.readDoubleQuoted
  | _ =>
    if isBlank c || isBreak c || "#%@`".contains c then .error (.noToken c) else s.readPlain

def step (s : Lexer) : Except Fault Lexer :=
  match s.cursor.rest with
  | [] => .ok s
  | c :: rest =>
    if s.cursor.column = 0 && c = '%' then s.readDirective
    else if s.cursor.column = 0 && isDocumentMark (c :: rest) then
      s.readDocumentMark (if c = '-' then .documentStart else .documentEnd)
    else s.readToken c rest

/-- Read the tokens up to the end; each takes a character, so `fuel` may be the length of the rest
and one. -/
def run : Nat → Lexer → Except Fault (Array Token)
  | 0, _ => .error .misplaced
  | fuel + 1, s => do
    let s ← s.toToken
    if s.cursor.rest.isEmpty then
      let s ← s.leaveBlocks
      return s.tokens.push .streamEnd
    else run fuel (← s.step)

end Lexer

def tokens (text : List Char) : Except Fault (List Token) :=
  match text.find? (!isReadable ·) with
  | some c => .error (.unreadable c)
  | none => do
    let found ← Lexer.run (text.length + 1) (.start (normalizeBreaks text))
    return found.toList

end ApiTidy.Yaml
