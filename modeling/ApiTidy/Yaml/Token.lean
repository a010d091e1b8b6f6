import ApiTidy.Yaml.Character
import ApiTidy.Yaml.Fault
import ApiTidy.Yaml.Tag

/-! The tokens of a YAML text, and positions in it. -/
namespace ApiTidy.Yaml

inductive ScalarStyle where
  | plain | singleQuoted | doubleQuoted | literal | folded
  deriving DecidableEq, Repr

/-- The tokens: marks of documents, of collections and of their parts, properties, and scalars. -/
inductive Token where
  | version (major minor : Nat)
  | tagHandle (handle : String) (start : Tag)
  | documentStart
  | documentEnd
  | streamEnd
  | blockSequenceStart
  | blockMappingStart
  | blockEnd
  | flowSequenceStart
  | flowSequenceEnd
  | flowMappingStart
  | flowMappingEnd
  | flowEntry
  | blockEntry
  | key
  | value
  | aliased (name : String)
  | anchor (name : String)
  | tag (handle : String) (suffix : Tag)
  | scalar (style : ScalarStyle) (text : String)
  deriving DecidableEq, Repr

/-- A place in the text, counted from zero. -/
structure Position where
  line : Nat
  column : Nat
  /-- How many octets the line takes up to here in UTF-8. -/
  octet : Nat
  deriving DecidableEq, Repr

namespace Position

def start : Position := ⟨0, 0, 0⟩

def right (p : Position) (count : Nat) : Position :=
  ⟨p.line, p.column + count, p.octet + count⟩

def past (p : Position) (c : Char) : Position :=
  if isBreak c then ⟨p.line + 1, 0, 0⟩ else ⟨p.line, p.column + 1, p.octet + c.utf8Size⟩

end Position

/-- What is left of the text, and where it stands. -/
structure Cursor where
  rest : List Char
  position : Position

namespace Cursor

def column (cursor : Cursor) : Nat := cursor.position.column

def forward (cursor : Cursor) (count : Nat) : Cursor :=
  ⟨cursor.rest.drop count, (cursor.rest.take count).foldl Position.past cursor.position⟩

/-- The cursor after the longest run of characters that belong to a line. -/
def past (cursor : Cursor) (belongs : Char → Bool) : Cursor :=
  cursor.forward (cursor.rest.takeWhile belongs).length

end Cursor

/-- Three hyphens or three dots, which are a mark at the start of a line. -/
def isDocumentMark : List Char → Bool
  | '-' :: '-' :: '-' :: rest => endsWord rest
  | '.' :: '.' :: '.' :: rest => endsWord rest
  | _ => false

end ApiTidy.Yaml
