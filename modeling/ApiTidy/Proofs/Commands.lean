import ApiTidy.Proofs.Session

/-!
What each command does to the files: a transformation writes its output or fails before it changes
anything, unless the writing itself fails; the other commands change nothing.
-/
namespace ApiTidy
namespace FileSystem

/-- What a transformation makes of its input, before it writes anything: the document and the
configuration are loaded, the pipeline is built and run. -/
def refine (files : FileSystem) (input : String) (config : Option String) (skip : List String) :
    Except Failure (Document × Format) := do
  let (doc, format) ← files.loadDocument input
  match Pipeline.ofConfig (← files.settings config skip) with
  | .error fault => .error (.config fault none)
  | .ok pipeline =>
    match pipeline.run doc with
    | .error failure _ => .error failure
    | .ok _ refined => .ok (refined, format)

/-- The steps of a transformation that gets as far as writing. -/
theorem refine_eq_ok {files : FileSystem} {input : String} {config : Option String}
    {skip : List String} {refined : Document} {format : Format} :
    files.refine input config skip = .ok (refined, format) ↔
      ∃ doc settings pipeline report, files.loadDocument input = .ok (doc, format) ∧
        files.settings config skip = .ok settings ∧ Pipeline.ofConfig settings = .ok pipeline ∧
        pipeline.run doc = .ok report refined := by
  unfold refine
  rw [Except.bind_eq_ok]
  constructor
  · rintro ⟨⟨doc, found⟩, hload, hrest⟩
    obtain ⟨settings, hsettings, hbuild⟩ := Except.bind_eq_ok.1 hrest
    cases hpipeline : Pipeline.ofConfig settings with
    | error fault => simp [hpipeline] at hbuild
    | ok pipeline =>
      cases hrun : pipeline.run doc with
      | error failure changed => simp [hpipeline, hrun] at hbuild
      | ok report changed =>
        simp only [hpipeline, hrun] at hbuild
        obtain ⟨rfl, rfl⟩ := Prod.mk.inj (Except.ok.inj hbuild)
        exact ⟨doc, settings, pipeline, report, hload, hsettings, hpipeline, hrun⟩
  · rintro ⟨doc, settings, pipeline, report, hload, hsettings, hpipeline, hrun⟩
    refine ⟨(doc, format), hload, Except.bind_eq_ok.2 ⟨settings, hsettings, ?_⟩⟩
    simp only [hpipeline, hrun]

/-- The steps in which a transformation can fail before it writes. -/
theorem refine_eq_error {files : FileSystem} {input : String} {config : Option String}
    {skip : List String} {failure : Failure} (h : files.refine input config skip = .error failure) :
    files.loadDocument input = .error failure ∨
      ∃ doc format, files.loadDocument input = .ok (doc, format) ∧
        (files.settings config skip = .error failure ∨
          ∃ settings, files.settings config skip = .ok settings ∧
            ((∃ fault, Pipeline.ofConfig settings = .error fault ∧
                failure = .config fault none) ∨
              ∃ pipeline changed, Pipeline.ofConfig settings = .ok pipeline ∧
                pipeline.run doc = .error failure changed)) := by
  refine (Except.bind_eq_error.1 h).imp_right ?_
  rintro ⟨⟨doc, format⟩, hload, hrest⟩
  refine ⟨doc, format, hload, (Except.bind_eq_error.1 hrest).imp_right ?_⟩
  rintro ⟨settings, hsettings, hbuild⟩
  refine ⟨settings, hsettings, ?_⟩
  cases hpipeline : Pipeline.ofConfig settings with
  | error fault =>
    simp only [hpipeline] at hbuild
    exact .inl ⟨fault, rfl, (Except.error.inj hbuild).symm⟩
  | ok pipeline =>
    cases hrun : pipeline.run doc with
    | error cause changed =>
      simp only [hpipeline, hrun] at hbuild
      obtain rfl := Except.error.inj hbuild
      exact .inr ⟨pipeline, changed, rfl, hrun⟩
    | ok report changed => simp [hpipeline, hrun] at hbuild

end FileSystem

namespace CommandLine
open FileSystem
variable {files after : FileSystem} {failure : Failure} {input output : String}
  {config : Option String} {skip : List String} {format : Option Format} {verbose : Bool}

/-- A transformation that fails before it writes leaves the files alone. -/
theorem ends_transform_error (output : String) (format : Option Format) (verbose : Bool)
    (h : files.refine input config skip = .error failure) :
    ∃ what, Ends (transform store input output config skip format verbose) files
      (.error ⟨what, some failure⟩) files := by
  unfold transform
  rcases refine_eq_error h with hload | ⟨doc, inputFormat, hload, hrest⟩
  · exact ⟨_, ((ends_loadDocument files input).bind
      (ends_attempt_error hload files).bind_error).say⟩
  rcases hrest with hsettings | ⟨settings, hsettings, hrest⟩
  · obtain ⟨what, hends⟩ := ends_resolveConfig_error hsettings
    exact ⟨what, (Ends.loaded hload hends.bind_error).say⟩
  have hconfig := ends_resolveConfig_ok hsettings
  rcases hrest with ⟨fault, hpipeline, rfl⟩ | ⟨pipeline, changed, hpipeline, hrun⟩
  · exact ⟨_, (Ends.loaded hload
      (hconfig.bind (ends_buildPipeline_error hpipeline files).bind_error)).say⟩
  · refine ⟨"Refinement failed", (Ends.loaded hload
      (hconfig.bind ((ends_buildPipeline_ok hpipeline files).bind ?_))).say⟩
    dsimp only
    split
    · refine .say (.say (.say (.say (ends_attempt_error ?_ files).bind_error)))
      rw [hrun]
    · refine .say (ends_attempt_error ?_ files).bind_error
      rw [hrun]

/-- The end of a transformation: what it made is written, and that is reported. -/
theorem ends_written {doc refined : Document} {pipeline : Pipeline} {report : RunReport}
    {format : Format} (hrun : pipeline.run doc = .ok report refined) :
    Ends (do
      let (report, refined) ← attempt "Refinement failed" <|
        match pipeline.run doc with
        | .ok report refined => .ok (report, refined)
        | .error failure _ => .error failure
      for (name, changes) in report do
        say (passLine name changes)
      attempt "Failed to write document" (← onFiles (store.writeDocument refined output format))
      say "\n✓ Refinement complete!"
      say ("  Total changes: " ++ toString report.total)
      match report.changes? PassName.pruneUnreachable.text with
      | some pruned => say ("  Pruned components: " ++ toString pruned)
      | none => pure ()
      say ("  Output: " ++ output)) files
      ((store.writeDocument refined output format files).1.mapError
        fun failure => ⟨"Failed to write document", some failure⟩)
      (store.writeDocument refined output format files).2 := by
  refine (ends_attempt_ok (by rw [hrun]) files).bind ?_
  refine .loop (fun _ files => .say (ends_pure _ files)) ((ends_onFiles _ files).bind ?_)
  cases hwrite : (store.writeDocument refined output format files).1 with
  | error failure => exact (ends_attempt_error rfl _).bind_error
  | ok written =>
    refine (ends_attempt_ok rfl _).bind (.say (.say ?_))
    dsimp only
    split
    · exact .say (ends_say _ _)
    · exact ends_say _ _

/-- A transformation that gets as far as writing ends as the writing does. -/
theorem ends_transform_ok {refined : Document} {inputFormat : Format}
    (h : files.refine input config skip = .ok (refined, inputFormat)) :
    Ends (transform store input output config skip format verbose) files
      ((store.writeDocument refined output (format.getD inputFormat) files).1.mapError
        fun failure => ⟨"Failed to write document", some failure⟩)
      (store.writeDocument refined output (format.getD inputFormat) files).2 := by
  obtain ⟨doc, settings, pipeline, report, hload, hsettings, hpipeline, hrun⟩ := refine_eq_ok.1 h
  unfold transform
  refine (Ends.loaded hload ((ends_resolveConfig_ok hsettings).bind
    ((ends_buildPipeline_ok hpipeline files).bind ?_))).say
  dsimp only
  -- With or without the lines of a verbose run, the rest is the same.
  split
  · exact .say (.say (.say (.say (ends_written hrun))))
  · exact .say (ends_written hrun)

/-- A check that cannot load what it needs says so. -/
theorem ends_check_error (h : files.loadDocument input = .error failure ∨
      ∃ loaded, files.loadDocument input = .ok loaded ∧
        files.settings config [] = .error failure) :
    ∃ what, Ends (check store input config verbose) files (.error ⟨what, some failure⟩) files := by
  unfold check
  rcases h with hload | ⟨loaded, hload, hsettings⟩
  · exact ⟨_, ((ends_loadDocument files input).bind
      (ends_attempt_error hload files).bind_error).say⟩
  · obtain ⟨what, hends⟩ := ends_resolveConfig_error hsettings
    exact ⟨what, (Ends.loaded hload hends.bind_error).say⟩

/-- The verdict of a check is about the document as it was loaded. -/
theorem ends_check_ok {doc : Document} {inputFormat : Format} {settings : Config}
    (hload : files.loadDocument input = .ok (doc, inputFormat))
    (hsettings : files.settings config [] = .ok settings) :
    Ends (check store input config verbose) files
      (if doc.danglingReferences = [] then .ok () else
        .error ⟨input ++ " has " ++ toString doc.danglingReferences.length
          ++ " dangling references", none⟩) files := by
  unfold check
  refine (Ends.loaded hload ((ends_resolveConfig_ok hsettings).bind ?_)).say
  refine .say (.say (.say (.say (.loop (fun kind files => ?_) ?_))))
  · dsimp only
    split
    · exact .say (ends_pure _ files)
    · exact ends_pure _ files
  have hverdict : ∀ report, Ends (if doc.danglingReferences.isEmpty = true then
        say "✓ No dangling references"
      else do
        say ("⚠ " ++ toString doc.danglingReferences.length ++ " dangling references")
        for reference in doc.danglingReferences do
          say ("  • " ++ reference.pointer)
        throw report) files
      (if doc.danglingReferences = [] then .ok () else .error report) files := by
    intro report
    simp only [List.isEmpty_iff]
    split
    · exact ends_say _ files
    · exact .say (.loop (fun _ files => .say (ends_pure _ files)) (ends_throw report files))
  dsimp only
  split
  · exact .say (hverdict _)
  · refine .say ?_
    split
    · exact .loop (fun _ files => .say (ends_pure _ files)) (hverdict _)
    · exact hverdict _

theorem ends_passes (config : Option String) (skip : List String) (files : FileSystem) :
    ∃ result, Ends (passes store config skip) files result files := by
  unfold passes
  cases hsettings : files.settings config skip with
  | error failure =>
    obtain ⟨what, hends⟩ := ends_resolveConfig_error hsettings
    exact ⟨_, hends.bind_error⟩
  | ok settings =>
    cases hpipeline : Pipeline.ofConfig settings with
    | error fault =>
      exact ⟨_, (ends_resolveConfig_ok hsettings).bind
        (ends_buildPipeline_error hpipeline files).bind_error⟩
    | ok pipeline =>
      refine ⟨.ok (), (ends_resolveConfig_ok hsettings).bind
        ((ends_buildPipeline_ok hpipeline files).bind (.say (.loop ?_ (ends_pure _ files))))⟩
      exact fun _ files => .say (ends_pure _ files)

theorem ends_runCommand {command : Command} {result : Except Report Unit}
    (h : Ends (match command with
      | .transform input output config skip format =>
        transform store input output config skip format verbose
      | .check input config => check store input config verbose
      | .passes config skip => passes store config skip) files result after) :
    Ends (runCommand store command verbose) files result after := by
  unfold runCommand
  dsimp only
  split
  · exact h.say
  · exact h

variable {arguments : List String}

/-- A run ends as its command does. -/
theorem run_of_ends {command : Command} {result : Except Report Unit}
    (harguments : Request.ofArguments arguments = .ok (.run command verbose))
    (hends : Ends (runCommand store command verbose) files result after) :
    ((run store arguments files).1.exitCode = 0 ↔ result = .ok ()) ∧
      (run store arguments files).2 = after := by
  obtain ⟨said, hrun⟩ := hends []
  unfold run
  rw [harguments]
  dsimp only
  rw [bind_apply]
  have hcommand : (ExceptT.run (runCommand store command verbose)).run [] files =
      ((result, said), after) := hrun
  rw [hcommand]
  cases result with
  | ok done => exact ⟨⟨fun _ => rfl, fun _ => rfl⟩, rfl⟩
  | error report => exact ⟨⟨fun h => (by cases h), fun h => (by cases h)⟩, rfl⟩

theorem run_transform
    (h : Request.ofArguments arguments =
      .ok (.run (.transform input output config skip format) verbose)) :
    (∀ failure, files.refine input config skip = .error failure →
        (run store arguments files).1.exitCode ≠ 0 ∧ (run store arguments files).2 = files) ∧
      ((run store arguments files).1.exitCode = 0 →
        ∃ refined inputFormat, files.refine input config skip = .ok (refined, inputFormat) ∧
          Wrote output (refined.render (format.getD inputFormat)) files
            (run store arguments files).2) := by
  cases hrefine : files.refine input config skip with
  | error cause =>
    obtain ⟨what, hends⟩ := ends_transform_error output format verbose hrefine
    obtain ⟨hcode, hfiles⟩ := run_of_ends h (ends_runCommand hends)
    have hnonzero : (run store arguments files).1.exitCode ≠ 0 := by simp [hcode]
    exact ⟨fun _ _ => ⟨hnonzero, hfiles⟩, fun hzero => absurd hzero hnonzero⟩
  | ok found =>
    obtain ⟨refined, inputFormat⟩ := found
    obtain ⟨hcode, hfiles⟩ := run_of_ends h (ends_runCommand (ends_transform_ok hrefine))
    refine ⟨fun failure h => (by cases h), fun hzero => ⟨refined, inputFormat, rfl, ?_⟩⟩
    have hwritten := hcode.1 hzero
    apply wrote_writeDocument
    rw [hfiles]
    refine Prod.ext ?_ rfl
    cases hwrite : (store.writeDocument refined output (format.getD inputFormat) files).1 with
    | error failure => simp [hwrite, Except.mapError] at hwritten
    | ok written => rfl

theorem run_check
    (h : Request.ofArguments arguments = .ok (.run (.check input config) verbose)) :
    (run store arguments files).2 = files ∧
      ((run store arguments files).1.exitCode = 0 ↔
        ∃ doc inputFormat settings, files.loadDocument input = .ok (doc, inputFormat) ∧
          files.settings config [] = .ok settings ∧ doc.danglingReferences = []) := by
  have hfails : ∀ failure, (files.loadDocument input = .error failure ∨
      ∃ loaded, files.loadDocument input = .ok loaded ∧
        files.settings config [] = .error failure) →
      (run store arguments files).2 = files ∧ (run store arguments files).1.exitCode ≠ 0 := by
    intro failure hfailure
    obtain ⟨what, hends⟩ := ends_check_error hfailure
    obtain ⟨hcode, hfiles⟩ := run_of_ends h (ends_runCommand hends)
    exact ⟨hfiles, by simp [hcode]⟩
  cases hload : files.loadDocument input with
  | error cause =>
    obtain ⟨hfiles, hnonzero⟩ := hfails cause (.inl hload)
    exact ⟨hfiles, fun hzero => absurd hzero hnonzero, fun ⟨_, _, _, hloaded, _⟩ => (by cases hloaded)⟩
  | ok loaded =>
    obtain ⟨doc, inputFormat⟩ := loaded
    cases hsettings : files.settings config [] with
    | error cause =>
      obtain ⟨hfiles, hnonzero⟩ := hfails cause (.inr ⟨_, hload, hsettings⟩)
      exact ⟨hfiles, fun hzero => absurd hzero hnonzero, fun ⟨_, _, _, _, hset, _⟩ => (by cases hset)⟩
    | ok settings =>
      obtain ⟨hcode, hfiles⟩ := run_of_ends h (ends_runCommand (ends_check_ok hload hsettings))
      refine ⟨hfiles, hcode.trans ?_⟩
      constructor
      · intro hverdict
        split at hverdict
        next hnone => exact ⟨doc, inputFormat, settings, rfl, rfl, hnone⟩
        next => cases hverdict
      · rintro ⟨_, _, _, hloaded, -, hnone⟩
        obtain ⟨rfl, -⟩ := Prod.mk.inj (Except.ok.inj hloaded)
        rw [if_pos hnone]

/-- No run leaves a part of its output. A transformation that fails before it writes exits with a
failure and changes nothing; one that exits with success has written what the pipeline made, in the
format asked for or else that of the input, and has made directories above the output only. A check
changes nothing, and succeeds exactly if what it needs can be loaded and no reference of the document
is dangling. Nothing else that a run can be asked for changes anything. -/
theorem run_without_partial_output (files : FileSystem) (arguments : List String) :
    match Request.ofArguments arguments with
    | .ok (.run (.transform input output config skip format) _) =>
      (∀ failure, files.refine input config skip = .error failure →
          (run store arguments files).1.exitCode ≠ 0 ∧ (run store arguments files).2 = files) ∧
        ((run store arguments files).1.exitCode = 0 →
          ∃ refined inputFormat, files.refine input config skip = .ok (refined, inputFormat) ∧
            Wrote output (refined.render (format.getD inputFormat)) files
              (run store arguments files).2)
    | .ok (.run (.check input config) _) =>
      (run store arguments files).2 = files ∧
        ((run store arguments files).1.exitCode = 0 ↔
          ∃ doc inputFormat settings, files.loadDocument input = .ok (doc, inputFormat) ∧
            files.settings config [] = .ok settings ∧ doc.danglingReferences = [])
    | _ => (run store arguments files).2 = files := by
  cases hrequest : Request.ofArguments arguments with
  | error fault =>
    unfold run
    rw [hrequest]
    rfl
  | ok request =>
    cases request with
    | help =>
      unfold run
      rw [hrequest]
      rfl
    | version =>
      unfold run
      rw [hrequest]
      rfl
    | run command verbose =>
      cases command with
      | transform input output config skip format => exact run_transform hrequest
      | check input config => exact run_check hrequest
      | passes config skip =>
        obtain ⟨result, hends⟩ := ends_passes config skip files
        exact (run_of_ends hrequest (ends_runCommand hends)).2

/-- A file system with a small document in its topmost directory. -/
def oneDocument : FileSystem := ⟨[(⟨"/in.json"⟩, .file "\x7b\"paths\":\x7b\x7d\x7d".toUTF8)], .top⟩

/-- Its document is written as YAML below a directory that is not there. -/
def rewriting : List String :=
  ["transform", "--input", "in.json", "--output", "new/out", "--format", "yaml"]

theorem run_without_partial_output_new_directory :
    (run store rewriting oneDocument).1.exitCode = 0 ∧
      ∃ refined inputFormat, oneDocument.refine "in.json" none [] = .ok (refined, inputFormat) ∧
        Wrote "new/out" (refined.render .yaml) oneDocument (run store rewriting oneDocument).2 := by
  have hcode : (run store rewriting oneDocument).1.exitCode = 0 := by decide +kernel
  have hrequest : Request.ofArguments rewriting =
      .ok (.run (.transform "in.json" "new/out" none [] (some .yaml)) false) := by rfl
  have hrun := run_without_partial_output oneDocument rewriting
  rw [hrequest] at hrun
  exact ⟨hcode, hrun.2 hcode⟩

end CommandLine
end ApiTidy
