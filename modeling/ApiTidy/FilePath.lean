import ApiTidy.Format
import ApiTidy.Text.Split

/-!
Paths of files: names separated by slashes. Empty names and single dots do not count, except for a
dot at the very start.
-/
namespace ApiTidy.FilePath

/-- The names of a path that count. -/
def names (path : String) : List String :=
  ((Text.pieces '/' path.toList).map String.ofList).filter fun name => name ≠ "" && name ≠ "."

/-- The last name, unless it leads upwards. -/
def fileName? (path : String) : Option String := (names path).getLast?.filter (· ≠ "..")

/-- What follows the last dot of the last name, if anything stands before that dot. -/
def extension? (path : String) : Option String := do
  let name ← fileName? path
  let (after, before) ← Text.cutAt '.' name.toList.reverse
  if before.isEmpty then none else some (String.ofList after.reverse)

/-- The text without slashes and single dots at its end that do not count. The dot at the start of a
path counts. -/
def dropSuperfluous : List Char → List Char
  | '/' :: rest => if rest.isEmpty then ['/'] else dropSuperfluous rest
  | ['.'] => ['.']
  | '.' :: '/' :: rest => dropSuperfluous ('/' :: rest)
  | reversed => reversed

/-- The path without its last name; none if it has no name. -/
def parent? (path : String) : Option String :=
  let reversed := dropSuperfluous path.toList.reverse
  match reversed with
  | [] | ['/'] => none
  | reversed =>
    let before := reversed.dropWhile (· ≠ '/')
    some (String.ofList (dropSuperfluous before).reverse)

def format? (path : String) : Option Format := (extension? path).bind Format.ofExtension?

/-- The format of a file: by its extension, else by its content. -/
def format (path content : String) : Format := (format? path).getD (Format.sniff content)

end ApiTidy.FilePath
