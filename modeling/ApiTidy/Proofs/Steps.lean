import ApiTidy.Pipeline
import ApiTidy.Proofs.Edit

/-!
Runs of named changes. A run over two lists is a run over the first and, unless that fails, one over
the second; a run that fails stops inside the change that fails.
-/
namespace ApiTidy.Pipeline
variable {ν : Type} {text : ν → String} {name : ν} {change : Edit Failure Document Nat}
  {later : List (ν × Edit Failure Document Nat)} {doc changed : Document} {counts : Counts ν}
  {failure : Failure}

theorem runSteps_cons_eq_ok : runSteps text ((name, change) :: later) doc = .ok counts changed ↔
    ∃ count between rest, change doc = .ok count between ∧
      runSteps text later between = .ok rest changed ∧ counts = (name, count) :: rest := by
  constructor
  · intro h
    obtain ⟨count, between, hchange, hlater⟩ := Edit.bind_eq_ok.1 h
    obtain ⟨rest, _, hrest, hpure⟩ := Edit.bind_eq_ok.1 hlater
    obtain ⟨rfl, rfl⟩ := Edit.pure_eq_ok.1 hpure
    exact ⟨count, between, rest, Edit.mapError_eq_ok.1 hchange, hrest, rfl⟩
  · rintro ⟨count, between, rest, hchange, hrest, rfl⟩
    refine Edit.bind_eq_ok.2 ⟨count, between, Edit.mapError_eq_ok.2 hchange, ?_⟩
    exact Edit.bind_eq_ok.2 ⟨rest, changed, hrest, rfl⟩

theorem runSteps_append_eq_ok {before : List (ν × Edit Failure Document Nat)} :
    runSteps text (before ++ later) doc = .ok counts changed ↔
      ∃ reached between rest, runSteps text before doc = .ok reached between ∧
        runSteps text later between = .ok rest changed ∧ counts = reached ++ rest := by
  induction before generalizing doc counts with
  | nil =>
    constructor
    · exact fun h => ⟨[], doc, counts, rfl, h, rfl⟩
    · rintro ⟨reached, between, rest, hnil, hrest, rfl⟩
      obtain ⟨rfl, rfl⟩ := Edit.pure_eq_ok.1 hnil
      exact hrest
  | cons step others ih =>
    obtain ⟨name, change⟩ := step
    rw [List.cons_append, runSteps_cons_eq_ok]
    constructor
    · rintro ⟨count, middle, _, hchange, hothers, rfl⟩
      obtain ⟨reached, between, rest, hreached, hrest, rfl⟩ := ih.1 hothers
      refine ⟨(name, count) :: reached, between, rest, ?_, hrest, rfl⟩
      exact runSteps_cons_eq_ok.2 ⟨count, middle, reached, hchange, hreached, rfl⟩
    · rintro ⟨_, between, rest, hbefore, hrest, rfl⟩
      obtain ⟨count, middle, reached, hchange, hreached, rfl⟩ := runSteps_cons_eq_ok.1 hbefore
      exact ⟨count, middle, reached ++ rest, hchange,
        ih.2 ⟨reached, between, rest, hreached, hrest, rfl⟩, rfl⟩

end ApiTidy.Pipeline
