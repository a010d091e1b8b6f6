import ApiTidy.Document.Text
import ApiTidy.Proofs.Root

/-!
What a run leaves of the components. Unreachable ones are removed last, from whatever the other
passes have made of the document, so each component that is left is in use.
-/
namespace ApiTidy
open Document

namespace Pipeline
variable {config : Config} {before : List Pass} {kinds : List ComponentKind}
  {doc changed : Document} {report : RunReport}

/-- Pruning is the last pass, if it is not skipped. -/
theorem ofConfig_eq_ok_append (hknown : ∀ name ∈ config.skip, PassName.isKnown name = true)
    (hprune : PassName.pruneUnreachable.text ∉ config.skip) :
    ∃ before, ofConfig config = .ok ⟨before ++ [.pruneUnreachable config.prune]⟩ := by
  let kept (name : PassName) : Bool := !config.skip.contains name.text
  have hlast : [PassName.pruneUnreachable].filter kept = [.pruneUnreachable] :=
    List.filter_cons_of_pos (by simpa [kept] using hprune)
  have hnames : PassName.all.filter kept = treePasses.filter kept ++ [.pruneUnreachable] := by
    rw [← hlast]
    exact List.filter_append treePasses [.pruneUnreachable]
  refine ⟨(treePasses.filter kept).map (Pass.ofConfig config), ?_⟩
  rw [ofConfig_of_isKnown hknown, hnames, List.map_append]
  rfl

theorem run_append_pruneUnreachable
    (h : run ⟨before ++ [.pruneUnreachable kinds]⟩ doc = .ok report changed) :
    ∃ between : Document, changed = between.sweep kinds := by
  obtain ⟨_, between, _, -, hlast⟩ := runPasses_append_eq_ok h
  obtain ⟨_, pruned, _, hprune, hnil⟩ := runPasses_cons_eq_ok hlast
  rw [apply_pruneUnreachable] at hprune
  obtain ⟨-, rfl⟩ := EStateM.Result.ok.inj hprune
  obtain ⟨-, rfl⟩ := Edit.pure_eq_ok.1 hnil
  exact ⟨between, rfl⟩

end Pipeline

theorem live_of_mem_componentsOf_sweep {doc : Document} {kinds : List ComponentKind}
    {reference : Reference} (h : reference ∈ (doc.sweep kinds).componentsOf kinds) :
    Live (doc.sweep kinds) kinds reference := by
  by_contra hdead
  have hfound : reference ∈ (doc.sweep kinds).unreachable kinds := by
    rw [unreachable_eq]
    exact List.mem_filter.2 ⟨h, decide_eq_true hdead⟩
  rw [unreachable_sweep] at hfound
  exact List.not_mem_nil hfound

theorem prune_sweep (doc : Document) (kinds : List ComponentKind) :
    prune kinds (doc.sweep kinds) = (⟨[], 1⟩, doc.sweep kinds) := by
  rw [prune_eq, unreachable_sweep, sweep_sweep]
  rfl

/-- No orphan survives a run by an accepted configuration that does not skip pruning, whatever else
is skipped: each component that is left is live, and pruning again removes nothing. -/
theorem Config.live_of_run {content : String} {config : Config} {extra : List String}
    (h : Config.parse content = .ok config)
    (hprune : PassName.pruneUnreachable.text ∉ config.skip)
    (hextra : ∀ name ∈ extra,
      PassName.isKnown name = true ∧ name ≠ PassName.pruneUnreachable.text) :
    ∃ pipeline, Pipeline.ofConfig { config with skip := config.skip ++ extra } = .ok pipeline ∧
      ∀ doc report changed, pipeline.run doc = .ok report changed →
        (∀ reference ∈ changed.componentsOf config.prune, Live changed config.prune reference) ∧
          Document.prune config.prune changed = (⟨[], 1⟩, changed) := by
  let extended : Config := { config with skip := config.skip ++ extra }
  have hknown : ∀ name ∈ extended.skip, PassName.isKnown name = true := by
    intro name hname
    rcases List.mem_append.1 hname with hskip | hmore
    · exact Config.isKnown_of_mem_skip h hskip
    · exact (hextra name hmore).1
  have hlast : PassName.pruneUnreachable.text ∉ extended.skip := by
    intro hname
    rcases List.mem_append.1 hname with hskip | hmore
    · exact hprune hskip
    · exact (hextra _ hmore).2 rfl
  obtain ⟨before, hbefore⟩ := Pipeline.ofConfig_eq_ok_append hknown hlast
  refine ⟨_, hbefore, ?_⟩
  intro doc report changed hrun
  obtain ⟨between, rfl⟩ := Pipeline.run_append_pruneUnreachable hrun
  constructor
  · exact fun reference hmem => live_of_mem_componentsOf_sweep hmem
  · exact prune_sweep between config.prune

/-- The run removes the schemas of `knotted` that only refer to themselves or to each other. -/
theorem Config.live_of_run_knotted :
    Config.parse "" = .ok .standard ∧
      ∃ pipeline report changed,
        Pipeline.ofConfig { Config.standard with skip := ["strip-examples"] } = .ok pipeline ∧
          pipeline.run knotted = .ok report changed ∧
          changed.componentNames .schemas = ["chain", "end", "named"] ∧
          Live changed [.schemas, .parameters] ⟨.schemas, "end"⟩ ∧
          Document.prune [.schemas, .parameters] changed = (⟨[], 1⟩, changed) := by
  have hconfig : Config.parse "" = .ok .standard := by cbv
  have hextra : ∀ name ∈ ["strip-examples"],
      PassName.isKnown name = true ∧ name ≠ PassName.pruneUnreachable.text := by decide
  obtain ⟨pipeline, hpipeline, hlive⟩ := Config.live_of_run hconfig (by decide) hextra
  have hkeeping : Pipeline.ofConfig { Config.standard with skip := ["strip-examples"] } =
      .ok keepingExamples := rfl
  obtain rfl := Except.ok.inj (hkeeping.symm.trans hpipeline)
  have hrun : ∃ report changed, keepingExamples.run knotted = .ok report changed ∧
      changed.componentNames .schemas = ["chain", "end", "named"] ∧
      ⟨.schemas, "end"⟩ ∈ changed.componentsOf Config.standard.prune :=
    ⟨_, _, rfl, by decide, by decide⟩
  obtain ⟨report, changed, hchanged, hnames, hleft⟩ := hrun
  obtain ⟨hused, hnothing⟩ := hlive knotted report changed hchanged
  exact ⟨hconfig, _, report, changed, hpipeline, hchanged, hnames, hused _ hleft, hnothing⟩

end ApiTidy
