import ApiTidy.Document.Text
import ApiTidy.Proofs.Json.Mapping
import ApiTidy.Proofs.Root
import ApiTidy.Proofs.Yaml.Mapping

/-!
Texts of documents. A document whose root is a mapping is never refused for its root when its text
is read again, and a run leaves such a root unless its fixes put something else there.
-/
namespace ApiTidy

end ApiTidy
