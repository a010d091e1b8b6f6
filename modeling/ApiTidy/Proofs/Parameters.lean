import ApiTidy.Parameters
import ApiTidy.Proofs.Change

/-! Stripping parameters counts those that it removes, and leaves none for a second time. -/
namespace ApiTidy.Parameters
variable (matchers : List ParameterMatcher)

theorem honest_strip : Change.Honest (strip matchers) := by
  have hlist : Change.Honest (stripList matchers) := (Change.honest_keepItems _).inSequence
  have hitem : Change.Honest (stripPathItem matchers) := by
    apply Change.Honest.inMapping
    apply Change.honest_onValues
    intro field
    split
    · exact hlist
    · split
      · exact hlist.atField key
      · exact Change.honest_keep
  exact (Change.honest_onValues fun _ => hitem).inMapping.atField _

theorem settles_strip : Change.Settles (strip matchers) := by
  have hlist : Change.Settles (stripList matchers) := (Change.settles_keepItems _).inSequence
  have hitem : Change.Settles (stripPathItem matchers) := by
    apply Change.Settles.inMapping
    apply Change.settles_onValues
    intro field
    split
    · exact hlist
    · split
      · exact hlist.atField key
      · exact Change.settles_keep
  exact (Change.settles_onValues fun _ => hitem).inMapping.atField _

/-- Without matchers there is nothing to strip. -/
theorem still_strip_nil (root : Node) : Change.Still (strip []) root := by
  have hlist : ∀ list, Change.Still (stripList []) list := by
    intro list
    apply Change.still_inSequence
    intro items _
    have hall : items.filter (fun _ => true) = items := List.filter_eq_self.2 fun _ _ => rfl
    show (items.filter (fun _ => true), items.length - (items.filter fun _ => true).length) = _
    rw [hall, Nat.sub_self]
  apply Change.still_atField
  intro paths _
  apply Change.still_inMapping
  intro routes _
  apply Change.still_onValues
  intro route _
  apply Change.still_inMapping
  intro fields _
  apply Change.still_onValues
  intro field _
  split
  · exact hlist field.2
  · split
    · exact Change.still_atField fun parameters _ => hlist parameters
    · rfl

end ApiTidy.Parameters
