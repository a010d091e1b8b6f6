import ApiTidy.Json.Numeral
import ApiTidy.Json.Quoted
import ApiTidy.Node.Basic

/-! The tokens of a JSON text. -/
namespace ApiTidy.Json

inductive Token where
  | beginObject | endObject | beginArray | endArray | colon | comma
  | scalar (value : Scalar)
  deriving DecidableEq

inductive Fault where
  | badCharacter (c : Char)
  | badNumeral
  | badString
  | badLiteral
  | misplaced
  | tooDeep
  | unfinished
  | trailing
  deriving DecidableEq, Repr

def Fault.describe : Fault → String
  | .badCharacter c => "unexpected character " ++ c.quote
  | .badNumeral => "malformed or too large number"
  | .badString => "malformed string"
  | .badLiteral => "expected null, true or false"
  | .misplaced => "unexpected token"
  | .tooDeep => "nesting is too deep"
  | .unfinished => "unexpected end of text"
  | .trailing => "text after the value"

def isSpace (c : Char) : Bool := c = ' ' || c = '\n' || c = '\t' || c = '\r'

/-- The token at the front of a text that starts with no space, and what follows it. -/
def token? : List Char → Except Fault (Token × List Char)
  | [] => .error .unfinished
  | '{' :: rest => .ok (.beginObject, rest)
  | '}' :: rest => .ok (.endObject, rest)
  | '[' :: rest => .ok (.beginArray, rest)
  | ']' :: rest => .ok (.endArray, rest)
  | ':' :: rest => .ok (.colon, rest)
  | ',' :: rest => .ok (.comma, rest)
  | '"' :: rest =>
    match unquote? rest with
    | some (text, left) => .ok (.scalar (.string (String.ofList text)), left)
    | none => .error .badString
  | 'n' :: 'u' :: 'l' :: 'l' :: rest => .ok (.scalar .null, rest)
  | 't' :: 'r' :: 'u' :: 'e' :: rest => .ok (.scalar (.bool true), rest)
  | 'f' :: 'a' :: 'l' :: 's' :: 'e' :: rest => .ok (.scalar (.bool false), rest)
  | c :: rest =>
    if c = '-' || Text.isDigit c then
      match numeral? (c :: rest) with
      | none => .error .badNumeral
      | some (numeral, left) =>
        match numeral.number? with
        | none => .error .badNumeral
        | some number => .ok (.scalar (.number number), left)
    else if c = 'n' || c = 't' || c = 'f' then .error .badLiteral
    else .error (.badCharacter c)

/-- The tokens from here on; each takes at least one character, so `fuel` may be the length. -/
def tokensFrom : Nat → List Char → Except Fault (List Token)
  | _, [] => .ok []
  | 0, _ :: _ => .error .unfinished
  | fuel + 1, c :: rest =>
    if isSpace c then tokensFrom fuel rest
    else do
      let (token, left) ← token? (c :: rest)
      let tokens ← tokensFrom fuel left
      return token :: tokens

def tokens (text : List Char) : Except Fault (List Token) := tokensFrom text.length text

end ApiTidy.Json
