import ApiTidy.Config.Reader
import ApiTidy.Proofs.FailedExtraction
import ApiTidy.Proofs.Pipeline
import ApiTidy.Proofs.Steps

/-!
What stands at the root of a document. Only fixes can put something else than a mapping there, by
writing at the empty address; all other edits leave the root the kind of node that it is.
-/
namespace ApiTidy

namespace Node
variable {α : Type} {address : String} {value : Node} {segments : List String}

end Node

/-- Whether a correction writes the root itself. -/
def Correction.WritesRoot : Correction → Prop
  | .delete _ => False
  | .set path _ => path = ""
  | .move _ target => target = ""

/-- Fixes put something else than a mapping at the root of a tree: the last of them that writes the
root leaves it there. -/
inductive Fix.Uproots : List Fix → Node → Prop
  | last {fix : Fix} {later : List Fix} {tree changed : Node} :
      fix.correction.WritesRoot → fix.correction.apply tree = .ok () changed →
      changed.isMapping = false → (∀ next ∈ later, ¬ next.correction.WritesRoot) →
      Uproots (fix :: later) tree
  | later {fix : Fix} {later : List Fix} {tree changed : Node} :
      fix.correction.apply tree = .ok () changed → Uproots later changed →
      Uproots (fix :: later) tree

namespace Document

end Document

open Document

namespace Pass

end Pass

namespace Pipeline
variable {passes before later : List Pass} {fixes : List Fix} {doc changed : Document}
  {report : RunReport}

theorem runPasses_cons_eq_ok {pass : Pass}
    (h : runPasses (pass :: later) doc = .ok report changed) :
    ∃ count between rest, pass.apply doc = .ok count between ∧
      runPasses later between = .ok rest changed := by
  obtain ⟨count, between, rest, hpass, hrest, -⟩ := runSteps_cons_eq_ok.1 h
  exact ⟨count, between, rest, hpass, hrest⟩

theorem runPasses_append_eq_ok (h : runPasses (before ++ later) doc = .ok report changed) :
    ∃ reached between rest, runPasses before doc = .ok reached between ∧
      runPasses later between = .ok rest changed := by
  rw [runPasses, List.map_append] at h
  obtain ⟨reached, between, rest, hreached, hrest, -⟩ := runSteps_append_eq_ok.1 h
  exact ⟨reached, between, rest, hreached, hrest⟩

/-- A run puts something else than a mapping at the root: its fixes do so. -/
def Uproots (pipeline : Pipeline) (doc : Document) : Prop :=
  ∃ before fixes later report between, pipeline.passes = before ++ .applyFixes fixes :: later ∧
    runPasses before doc = .ok report between ∧ Fix.Uproots fixes between.root

end Pipeline

/-- A configuration that is accepted skips no unknown pass. -/
theorem Config.isKnown_of_mem_skip {content name : String} {config : Config}
    (h : Config.parse content = .ok config) (hname : name ∈ config.skip) :
    PassName.isKnown name = true := by
  have hvalid : config.fault? = none := by
    unfold Config.parse at h
    split at h
    next => simp at h
    next decoded _ =>
      unfold Config.validate at h
      split at h
      next => simp at h
      next hfault => rw [← Except.ok.inj h, hfault]
  unfold Config.fault? at hvalid
  split at hvalid
  next => simp at hvalid
  next =>
    cases hfind : config.skip.find? (fun name => !PassName.isKnown name) with
    | none => simpa using List.find?_eq_none.1 hfind name hname
    | some unknown => simp [hfind] at hvalid

end ApiTidy
