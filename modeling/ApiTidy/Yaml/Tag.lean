/-!
Tags of nodes. A tag is text, but octets written with percent signs may encode no character; a tag
with such a place in it cannot be read. Tags that start with an exclamation mark are local.
-/
namespace ApiTidy.Yaml

/-- A tag, or a part of one: its characters, and `none` where octets encode no character. -/
structure Tag where
  places : List (Option Char)
  deriving DecidableEq, Repr

namespace Tag

def ofString (text : String) : Tag := ⟨text.toList.map some⟩

instance : Append Tag := ⟨fun a b => ⟨a.places ++ b.places⟩⟩

/-- The tag without its first NUL and what follows it. -/
def upToNul (tag : Tag) : Tag := ⟨tag.places.takeWhile (· ≠ some '\x00')⟩

def text? (tag : Tag) : Option String := (tag.places.mapM id).map String.ofList

/-- Whether a tag has no meaning outside the document that uses it. -/
def isLocal (tag : Tag) : Bool := tag.places.head? = some (some '!')

/-- The name of a local tag that can be read: what follows its exclamation mark. -/
def localName? (tag : Tag) : Option String :=
  if tag.isLocal then (Tag.mk tag.places.tail).text? else none

def mark : Tag := ofString "!"

def standardStart : Tag := ofString "tag:yaml.org,2002:"

def standard (name : String) : Tag := standardStart ++ ofString name

end Tag
end ApiTidy.Yaml
