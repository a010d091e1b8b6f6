import ApiTidy.Text.Numeral
import ApiTidy.Yaml.Token.Block

/-! Properties of nodes (anchors, aliases and tags) and directives of documents. -/
namespace ApiTidy.Yaml

def endsName : List Char → Bool
  | [] => true
  | c :: rest => endsWord (c :: rest) || "?:,]\x7d%@`".contains c

/-- The name of an anchor or alias; the cursor stands on the indicator. -/
def anchorName (cursor : Cursor) : Except Fault (String × Cursor) :=
  let inside := cursor.forward 1
  let name := inside.rest.takeWhile isNameCharacter
  let after := inside.forward name.length
  if name.isEmpty || !endsName after.rest then .error .badName
  else .ok (String.ofList name, after)

def isTagCharacter (c : Char) : Bool := isNameCharacter c || ";/?:@&=+$.%!~*'()".contains c

def isVerbatimTagCharacter (c : Char) : Bool :=
  isTagCharacter c || c = ',' || c = '[' || c = ']'

/-- How many octets follow the first one of a character, and its share of the character's number. -/
def leadingOctet? (octet : Nat) : Option (Nat × Nat) :=
  if octet < 0x80 then some (0, octet)
  else if 0xC0 ≤ octet && octet < 0xE0 then some (1, octet - 0xC0)
  else if 0xE0 ≤ octet && octet < 0xF0 then some (2, octet - 0xE0)
  else if 0xF0 ≤ octet && octet < 0xF8 then some (3, octet - 0xF0)
  else none

/-- The octet at the front of the text, written as a percent sign and two hexadecimal digits. -/
def octet? : List Char → Option (Nat × List Char)
  | '%' :: a :: b :: rest => (Text.numeral? 16 [a, b]).map (·, rest)
  | _ => none

/-- The number that further octets complete. They need only look like further octets. -/
def furtherOctets? : Nat → Nat → List Char → Option (Nat × List Char)
  | 0, value, text => some (value, text)
  | count + 1, value, text => do
    let (octet, rest) ← octet? text
    if 0x80 ≤ octet && octet < 0xC0 then furtherOctets? count (value * 0x40 + (octet - 0x80)) rest
    else none

/-- The least number that takes a given count of further octets. -/
def leastOfLength : Nat → Nat
  | 0 => 0
  | 1 => 0x80
  | 2 => 0x800
  | _ => 0x10000

/-- The character of a number that was spelled with a count of further octets; none if the number is
no character's or has a shorter spelling. -/
def encoded? (count value : Nat) : Option Char :=
  if leastOfLength count ≤ value && value.isValidChar then some (Char.ofNat value) else none

/-- The places of a text with the octets of percent signs decoded; `fuel` may be its length. -/
def decodeOctets? : Nat → List Char → Option (List (Option Char))
  | _, [] => some []
  | 0, _ :: _ => none
  | fuel + 1, c :: rest =>
    if c ≠ '%' then (decodeOctets? fuel rest).map (some c :: ·)
    else do
      let (octet, rest) ← octet? (c :: rest)
      let (count, value) ← leadingOctet? octet
      let (value, rest) ← furtherOctets? count value rest
      (decodeOctets? fuel rest).map (encoded? count value :: ·)

/-- The part of a tag at the cursor, whose characters are of the given class. A NUL ends it. -/
def tagPart (belongs : Char → Bool) (cursor : Cursor) : Except Fault (Tag × Cursor) :=
  let raw := cursor.rest.takeWhile belongs
  match decodeOctets? raw.length raw with
  | some places => .ok (Tag.upToNul ⟨places⟩, cursor.forward raw.length)
  | none => .error .badTag

/-- The same, of at least one character as it is written. -/
def writtenTagPart (belongs : Char → Bool) (cursor : Cursor) : Except Fault (Tag × Cursor) :=
  if cursor.rest.head?.any belongs then tagPart belongs cursor else .error .badTag

/-- The handle of a tag at the cursor: a name between exclamation marks, or one mark alone. -/
def tagHandle? (text : List Char) : Option (List Char) :=
  let name := text.tail.takeWhile isNameCharacter
  if (text.drop (name.length + 1)).head? = some '!' then some ('!' :: name ++ ['!']) else none

def endsTag (flow : Bool) (text : List Char) : Bool :=
  endsWord text || (flow && text.head? = some ',')

/-- A tag between angle brackets, which has no handle; the cursor stands on the first bracket. -/
def verbatimTag (cursor : Cursor) : Except Fault ((String × Tag) × Cursor) := do
  let (suffix, after) ← writtenTagPart isVerbatimTagCharacter (cursor.forward 1)
  if after.rest.head? ≠ some '>' then .error .badTag
  else return (("", suffix), after.forward 1)

/-- Handle and suffix of a tag without brackets. The handle may be a lone exclamation mark, and the
mark without a suffix is a tag of its own. -/
def shorthandTag (cursor : Cursor) : Except Fault ((String × Tag) × Cursor) :=
  match tagHandle? cursor.rest with
  | some handle => do
    let (suffix, after) ← writtenTagPart isTagCharacter (cursor.forward handle.length)
    return ((String.ofList handle, suffix), after)
  | none => do
    let (suffix, after) ← tagPart isTagCharacter (cursor.forward 1)
    return (if suffix.places.isEmpty then ("", .mark) else ("!", suffix), after)

/-- Handle and suffix of a tag; the cursor stands on its exclamation mark. -/
def tag (flow : Bool) (cursor : Cursor) : Except Fault ((String × Tag) × Cursor) := do
  let (parts, after) ←
    if cursor.rest.tail.head? = some '<' then verbatimTag (cursor.forward 1)
    else shorthandTag cursor
  if endsTag flow after.rest then return (parts, after) else .error .badTag

/-- A number of a version: one to nine decimal digits. -/
def versionNumber (cursor : Cursor) : Except Fault (Nat × Cursor) :=
  let digits := cursor.rest.takeWhile Text.isDigit
  match Text.numeral? 10 digits with
  | some n =>
    if digits.length ≤ 9 then .ok (n, cursor.forward digits.length) else .error .badDirective
  | none => .error .badDirective

def version (cursor : Cursor) : Except Fault (Token × Cursor) := do
  let (major, cursor) ← versionNumber cursor
  if cursor.rest.head? ≠ some '.' then .error .badDirective
  else
    let (minor, cursor) ← versionNumber (cursor.forward 1)
    return (.version major minor, cursor)

def handleDefinition (cursor : Cursor) : Except Fault (Token × Cursor) := do
  let handle ←
    match tagHandle? cursor.rest with
    | some handle => .ok handle
    | none => .ok ['!']
  if cursor.rest.head? ≠ some '!' then .error .badDirective
  else
    let after := cursor.forward handle.length
    if !after.rest.head?.any isBlank then .error .badDirective
    else
      let (start, after) ← writtenTagPart isVerbatimTagCharacter (after.past isBlank)
      if !endsWord after.rest then .error .badDirective
      else return (.tagHandle (String.ofList handle) start, after)

/-- The directive at the cursor, which stands on the percent sign, up to the next line. -/
def directive (cursor : Cursor) : Except Fault (Token × Cursor) := do
  let inside := cursor.forward 1
  let name := inside.rest.takeWhile isNameCharacter
  let after := inside.forward name.length
  if !endsWord after.rest then .error .badDirective
  else
    let arguments := after.past isBlank
    let (token, after) ←
      match String.ofList name with
      | "YAML" => version arguments
      | "TAG" => handleDefinition arguments
      | _ => .error .badDirective
    let next ← endOfLine .badDirective after
    return (token, next)

end ApiTidy.Yaml
