/-! Why a YAML text has no meaning. -/
namespace ApiTidy.Yaml

/-- The rule of the format that a text breaks. -/
inductive Fault where
  | unreadable (c : Char)
  | noToken (c : Char)
  | tabAsIndent
  | colonInFlowWord
  | missingColon
  | entryNotAllowed
  | keyNotAllowed
  | valueNotAllowed
  | unfinishedQuote
  | markInQuote
  | badEscape
  | badBlockHeader
  | badName
  | badTag
  | undefinedHandle (handle : String)
  | badDirective
  | repeatedDirective
  | misplaced
  | secondDocument
  | unknownAnchor (name : String)
  | tooDeep
  | tooManyAliases
  | localTag (name : String)
  | notOfTag (name : String)
  | tooLargeInteger
  | collectionKey
  deriving DecidableEq, Repr

def Fault.describe : Fault → String
  | .unreadable c => "control characters are not allowed: " ++ c.quote
  | .noToken c => "found a character that cannot start any token: " ++ c.quote
  | .tabAsIndent => "found a tab where indentation is expected"
  | .colonInFlowWord => "found an unexpected ':' in a flow collection"
  | .missingColon => "could not find the ':' after a key"
  | .entryNotAllowed => "sequence entries are not allowed here"
  | .keyNotAllowed => "mapping keys are not allowed here"
  | .valueNotAllowed => "mapping values are not allowed here"
  | .unfinishedQuote => "a quoted scalar does not end"
  | .markInQuote => "found a document mark in a quoted scalar"
  | .badEscape => "unknown escape"
  | .badBlockHeader => "malformed header of a block scalar"
  | .badName => "malformed anchor or alias"
  | .badTag => "malformed tag"
  | .undefinedHandle handle => "undefined tag handle: " ++ handle
  | .badDirective => "malformed directive"
  | .repeatedDirective => "a directive is repeated"
  | .misplaced => "unexpected structure"
  | .secondDocument => "more than one document"
  | .unknownAnchor name => "unknown anchor: " ++ name
  | .tooDeep => "nesting is too deep"
  | .tooManyAliases => "aliases are repeated too often"
  | .localTag name => "unexpected local tag: !" ++ name
  | .notOfTag name => "the scalar is not of its tag: !!" ++ name
  | .tooLargeInteger => "integer out of range"
  | .collectionKey => "a collection cannot be a key"

end ApiTidy.Yaml
