/-!
Cutting text at a separator and joining the pieces again. Text is a list of characters here, so that
every operation is a recursion on the data.
-/
namespace ApiTidy.Text

/-- The pieces between the separators; text without a separator is one piece. -/
def pieces (sep : Char) : List Char → List (List Char)
  | [] => [[]]
  | c :: rest =>
    if c = sep then [] :: pieces sep rest
    else (pieces sep rest).modifyHead (c :: ·)

/-- The pieces with one separator between neighbours. -/
def join (sep : Char) (parts : List (List Char)) : List Char :=
  [sep].intercalate parts

/-- What stands before and after the first separator. -/
def cutAt (sep : Char) : List Char → Option (List Char × List Char)
  | [] => none
  | c :: rest =>
    if c = sep then some ([], rest)
    else (cutAt sep rest).map fun (before, after) => (c :: before, after)

/-- What stands before the first separator, or everything. -/
def before (sep : Char) (text : List Char) : List Char :=
  text.takeWhile (· ≠ sep)

/-- The text without the given characters at its end. -/
def dropEnd (unwanted : Char → Bool) (text : List Char) : List Char :=
  (text.reverse.dropWhile unwanted).reverse

end ApiTidy.Text
