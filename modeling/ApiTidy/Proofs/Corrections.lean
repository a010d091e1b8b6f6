import ApiTidy.Pass
import ApiTidy.Proofs.Address.Atomic

/-!
Corrections that fail. A single correction then changes nothing, so a failing list of fixes leaves
the document that the fixes before the failing one made.
-/
namespace ApiTidy

theorem Correction.apply_atomic (correction : Correction) : correction.apply.Atomic := by
  intro tree fault changed h
  cases correction with
  | set path value => exact Node.set_atomic path value h
  | move source target => exact Node.move_atomic source target h
  | delete path =>
    rcases Edit.bind_eq_error.1 h with hd | ⟨found, between, -, hpure⟩
    · exact Node.delete_atomic path hd
    · exact absurd hpure Edit.pure_ne_error

/-- Fixes fail at one of them, and that one changes nothing. -/
theorem Fix.applyAll_eq_error {fixes : List Fix} {tree changed : Node} {fault : AddressError}
    (h : Fix.applyAll fixes tree = .error fault changed) :
    ∃ done fix later, fixes = done ++ fix :: later ∧
      Fix.applyAll done tree = .ok done.length changed ∧
      fix.correction.apply changed = .error fault changed := by
  rcases Edit.bind_eq_error.1 h with hrun | ⟨found, between, -, hpure⟩
  · obtain ⟨done, fix, later, between, rfl, hdone, hfix⟩ := Edit.forM_eq_error hrun
    have hsame := fix.correction.apply_atomic hfix
    subst hsame
    exact ⟨done, fix, later, rfl,
      Edit.bind_eq_ok.2 ⟨⟨⟩, changed, hdone, Edit.pure_eq_ok.2 ⟨rfl, rfl⟩⟩, hfix⟩
  · exact absurd hpure Edit.pure_ne_error

/-- An edit by address that fails leaves the tree as it was. A pass of fixes that fails leaves the
document that the fixes before the failing one make of it. -/
theorem failed_edits_unchanged :
    (∀ address value, (Node.set address value).Atomic) ∧
    (∀ address, (Node.delete address).Atomic) ∧
    (∀ source target, (Node.move source target).Atomic) ∧
    ∀ (fixes : List Fix) (doc changed : Document) (fault : Failure),
      (Pass.applyFixes fixes).apply doc = .error fault changed →
      ∃ done fix later cause, fixes = done ++ fix :: later ∧ fault = .address cause ∧
        (Pass.applyFixes done).apply doc = .ok done.length changed ∧
        fix.correction.apply changed.root = .error cause changed.root := by
  refine ⟨Node.set_atomic, Node.delete_atomic, Node.move_atomic, ?_⟩
  intro fixes doc changed fault h
  obtain ⟨tree, htree, rfl⟩ := Edit.onPart_eq_error h
  obtain ⟨cause, hcause, rfl⟩ := Edit.mapError_eq_error htree
  obtain ⟨done, fix, later, rfl, hdone, hfix⟩ := Fix.applyAll_eq_error hcause
  refine ⟨done, fix, later, cause, rfl, rfl, ?_, hfix⟩
  show Edit.onPart doc.root Document.mk _ = _
  rw [Edit.onPart, Edit.mapError_eq_ok.2 hdone]

theorem failed_edits_unchanged_midway :
    let start : Node := .mapping [("a", .mapping [("x", .null), ("y", .null)]),
      ("b", .ofString "text")]
    let between : Node := .mapping [("a", .mapping [("x", .null), ("y", .null)]),
      ("b", .ofString "text"), ("d", .mapping [("e", .null)])]
    let fixes : List Fix := [⟨none, .set "d.e" .null⟩, ⟨none, .move "a.x" "b.c"⟩,
      ⟨none, .delete "a"⟩]
    let fault : AddressError := .notContainer "b.c" "c"
    (∃ changed, Node.set "b.c" .null start = .error fault changed ∧ start = changed) ∧
      (∃ changed, Node.delete "b.c" start = .error fault changed ∧ start = changed) ∧
      (∃ changed, Node.move "a.x" "b.c" start = .error fault changed ∧ start = changed) ∧
      (Pass.applyFixes fixes).apply ⟨start⟩ = .error (.address fault) ⟨between⟩ ∧
      ∃ done fix later cause, fixes = done ++ fix :: later ∧
        Failure.address fault = .address cause ∧
        (Pass.applyFixes done).apply ⟨start⟩ = .ok done.length ⟨between⟩ ∧
        fix.correction.apply between = .error cause between := by
  intro start between fixes fault
  obtain ⟨hset, hdelete, hmove, hfixes⟩ := failed_edits_unchanged
  have hfails : (Pass.applyFixes fixes).apply ⟨start⟩ = .error (.address fault) ⟨between⟩ := rfl
  refine ⟨⟨start, rfl, hset "b.c" .null rfl⟩, ⟨start, rfl, hdelete "b.c" rfl⟩,
    ⟨start, rfl, hmove "a.x" "b.c" rfl⟩, hfails, ?_⟩
  exact hfixes fixes ⟨start⟩ ⟨between⟩ (.address fault) hfails

end ApiTidy
