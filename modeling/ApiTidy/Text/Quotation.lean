import ApiTidy.Text.Extending
import ApiTidy.Text.Unseen

/-!
Text between quotation marks, as reports show it. Characters that would not be seen, or that would
join the character before them, are written by their number.
-/
namespace ApiTidy.Text

def quotedCharacter (c : Char) : List Char :=
  if c = '"' || c = '\'' || c = '\\' then ['\\', c]
  else if c = '\n' then ['\\', 'n']
  else if c = '\r' then ['\\', 'r']
  else if c = '\t' then ['\\', 't']
  else if c = '\x00' then ['\\', '0']
  else if unseen.has c || extending.has c then
    ['\\', 'u', '{'] ++ Nat.toDigits 16 c.toNat ++ ['}']
  else [c]

def quotation (text : String) : String :=
  String.ofList ('"' :: text.toList.flatMap quotedCharacter ++ ['"'])

end ApiTidy.Text
