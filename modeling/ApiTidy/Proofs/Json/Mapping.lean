import ApiTidy.Json.Printer
import ApiTidy.Json.Reader
import ApiTidy.Proofs.Except

/-! The JSON text of a mapping opens with a brace, so it is read back as a mapping or not at all. -/
namespace ApiTidy.Json

theorem pretty_mapping (level : Nat) (entries : Entries Node) :
    ∃ rest, pretty level (.mapping entries) = '{' :: rest := by
  cases entries with
  | nil => exact ⟨_, rfl⟩
  | cons entry rest => exact ⟨_, rfl⟩

end ApiTidy.Json
