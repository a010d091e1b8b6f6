/-! Replacing each occurrence of one text in another. -/
namespace ApiTidy.Text

/-- The text with `new` for each occurrence of `old`. The first `skip` characters belong to the
occurrence before them, which has been replaced. -/
def replaceFrom (old new : List Char) : Nat → List Char → List Char
  | _, [] => []
  | skip + 1, _ :: rest => replaceFrom old new skip rest
  | 0, c :: rest =>
    if old.isPrefixOf (c :: rest) then new ++ replaceFrom old new (old.length - 1) rest
    else c :: replaceFrom old new 0 rest

/-- The text with `new` for each occurrence of `old`, which is not empty. Occurrences are found from
the left and do not overlap. -/
def replace (old new text : List Char) : List Char := replaceFrom old new 0 text

end ApiTidy.Text
