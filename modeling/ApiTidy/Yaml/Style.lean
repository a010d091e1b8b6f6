import ApiTidy.Yaml.Character
import ApiTidy.Yaml.Meaning
import ApiTidy.Yaml.Token

/-!
Which style a text is written in. A text with a line feed is a literal block and one that would read
as something else than text is quoted; what a style cannot hold goes to the next stronger one, of
which double quotes hold everything.
-/
namespace ApiTidy.Yaml

/-- Whether a character of the given class is directly followed by one of the other class. -/
def hasPair (first second : Char → Bool) : List Char → Bool
  | a :: b :: rest => (first a && second b) || hasPair first second (b :: rest)
  | _ => false

/-- Whether a space stands next to a break, on either side. -/
def hasSpaceAfterBreak (text : List Char) : Bool := hasPair isBreak (· = ' ') text

def hasSpaceBeforeBreak (text : List Char) : Bool := hasPair (· = ' ') isBreak text

def isShowable (text : List Char) : Bool := text.all isPrintable

/-- Whether a mark of the format stands after the first character: a colon at the end of a word or a
number sign at the start of one. -/
def hasInnerMark : List Char → Bool
  | a :: b :: rest =>
    (b = ':' && endsWord rest) || (b = '#' && (isBlank a || isBreak a)) || hasInnerMark (b :: rest)
  | _ => false

def startsWithMark : List Char → Bool
  | [] => false
  | '-' :: '-' :: '-' :: _ => true
  | '.' :: '.' :: '.' :: _ => true
  | c :: rest =>
    "#,[]\x7b\x7d&*!|>'\"%@`".contains c || ((c = '?' || c = ':' || c = '-') && endsWord rest)

def fitsPlain (text : List Char) : Bool :=
  isShowable text && !text.any isBreak && text.head? ≠ some ' ' && text.getLast? ≠ some ' '
    && !startsWithMark text && !hasInnerMark text

def fitsSingleQuotes (text : List Char) : Bool :=
  isShowable text && !hasSpaceAfterBreak text && !hasSpaceBeforeBreak text

def fitsBlock (text : List Char) : Bool :=
  isShowable text && !hasSpaceBeforeBreak text && text.getLast? ≠ some ' '

/-- The single quotes if they can hold the text, else the double ones. -/
def quotedStyle (text : List Char) : ScalarStyle :=
  if fitsSingleQuotes text then .singleQuoted else .doubleQuoted

/-- Whether a plain scalar would read as something else than this text. -/
def needsQuotes (text : List Char) : Bool :=
  Meaning.ofPlain (String.ofList text) ≠ .text || isZeroLed text

def ScalarStyle.ofText (text : List Char) : ScalarStyle :=
  if text.contains '\n' then if fitsBlock text then .literal else .doubleQuoted
  else if needsQuotes text then quotedStyle text
  else if fitsPlain text then .plain
  else quotedStyle text

end ApiTidy.Yaml
