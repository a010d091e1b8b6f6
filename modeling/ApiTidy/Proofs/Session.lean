import ApiTidy.CommandLine.Run
import ApiTidy.Proofs.FileSystem

/-!
How the commands end on a file system that is a value. What is said on the way does not matter for
that, so a session is followed by its result and the files it leaves.
-/
namespace ApiTidy
namespace FileSystem

/-- The document that a path leads to. -/
def loadDocument (files : FileSystem) (path : String) : Except Failure (Document × Format) :=
  (store.loadDocument path files).1

def loadConfig (files : FileSystem) (path : String) : Except Failure Config :=
  (store.loadConfig path files).1

theorem loadDocument_eq (files : FileSystem) (path : String) :
    store.loadDocument path files = (files.loadDocument path, files) := by
  refine Prod.ext rfl ?_
  unfold FileStore.loadDocument
  rw [bind_apply]
  have hread : store.read path files = (files.readText path, files) := rfl
  rw [hread]
  cases files.readText path with
  | error fault => rfl
  | ok content =>
    dsimp only
    cases Document.parseFrom (some path) content (FilePath.format path content) <;> rfl

theorem loadConfig_eq (files : FileSystem) (path : String) :
    store.loadConfig path files = (files.loadConfig path, files) := by
  refine Prod.ext rfl ?_
  unfold FileStore.loadConfig
  rw [bind_apply]
  have hread : store.read path files = (files.readText path, files) := rfl
  rw [hread]
  cases files.readText path with
  | error fault => rfl
  | ok content =>
    dsimp only
    cases Config.parse content <;> rfl

/-- The configuration at a path, or the standard one, with further passes to skip. -/
def settings (files : FileSystem) (config : Option String) (skip : List String) :
    Except Failure Config :=
  match config with
  | none => .ok { Config.standard with skip := Config.standard.skip ++ skip }
  | some path => (files.loadConfig path).map fun found => { found with skip := found.skip ++ skip }

end FileSystem

namespace CommandLine
open FileSystem
variable {α β : Type} {files between after : FileSystem} {report : Report}

/-- A session on some files ends with a result and leaves some files, whatever was said before. -/
def Ends (session : Session (StateM FileSystem) α) (files : FileSystem)
    (result : Except Report α) (after : FileSystem) : Prop :=
  ∀ lines, ∃ said, session lines files = ((result, said), after)

section Ends
variable {first : Session (StateM FileSystem) α} {next : α → Session (StateM FileSystem) β}
  {answer : α} {result : Except Report β}

theorem ends_pure (answer : α) (files : FileSystem) : Ends (pure answer) files (.ok answer) files :=
  fun lines => ⟨lines, rfl⟩

theorem ends_throw (report : Report) (files : FileSystem) :
    Ends (throw report : Session (StateM FileSystem) α) files (.error report) files :=
  fun lines => ⟨lines, rfl⟩

theorem ends_say (line : String) (files : FileSystem) : Ends (say line) files (.ok ()) files :=
  fun lines => ⟨lines ++ [line], rfl⟩

theorem ends_onFiles (action : StateM FileSystem α) (files : FileSystem) :
    Ends (onFiles action) files (.ok (action files).1) (action files).2 :=
  fun lines => ⟨lines, rfl⟩

theorem bind_run (lines : List String) (files : FileSystem) :
    (first >>= next) lines files =
      ExceptT.bindCont next (first lines files).1.1 (first lines files).1.2
        (first lines files).2 := rfl

theorem Ends.bind (hfirst : Ends first files (.ok answer) between)
    (hnext : Ends (next answer) between result after) :
    Ends (first >>= next) files result after := by
  intro lines
  obtain ⟨said, hrun⟩ := hfirst lines
  rw [bind_run, hrun]
  exact hnext said

theorem Ends.bind_error (hfirst : Ends first files (.error report) after) :
    Ends (first >>= next) files (.error report) after := by
  intro lines
  obtain ⟨said, hrun⟩ := hfirst lines
  rw [bind_run, hrun]
  exact ⟨said, rfl⟩

theorem Ends.say {line : String} {next : Unit → Session (StateM FileSystem) β}
    (hnext : Ends (next ()) files result after) :
    Ends (CommandLine.say line >>= next) files result after :=
  (ends_say line files).bind hnext

theorem ends_attempt_ok {what : String} {tried : Except Failure α} (h : tried = .ok answer)
    (files : FileSystem) : Ends (attempt what tried) files (.ok answer) files :=
  h ▸ ends_pure answer files

theorem ends_attempt_error {what : String} {tried : Except Failure α} {failure : Failure}
    (h : tried = .error failure) (files : FileSystem) :
    Ends (attempt what tried) files (.error ⟨what, some failure⟩) files :=
  h ▸ ends_throw _ files

/-- A loop that only says something. -/
theorem Ends.loop {γ : Type} {items : List γ}
    {body : γ → PUnit → Session (StateM FileSystem) (ForInStep PUnit)}
    {next : PUnit → Session (StateM FileSystem) β}
    (hbody : ∀ item files, Ends (body item ⟨⟩) files (.ok (.yield ⟨⟩)) files)
    (hnext : Ends (next ⟨⟩) files result after) :
    Ends (forIn items PUnit.unit body >>= next) files result after := by
  have hloop : Ends (forIn items PUnit.unit body) files (.ok ⟨⟩) files := by
    induction items with
    | nil => exact ends_pure _ files
    | cons item rest ih =>
      rw [List.forIn_cons]
      exact (hbody item files).bind ih
  exact hloop.bind hnext

end Ends

theorem ends_loadDocument (files : FileSystem) (path : String) :
    Ends (onFiles (store.loadDocument path)) files (.ok (files.loadDocument path)) files := by
  have h := ends_onFiles (store.loadDocument path) files
  rwa [loadDocument_eq] at h

theorem ends_loadConfig (files : FileSystem) (path : String) :
    Ends (onFiles (store.loadConfig path)) files (.ok (files.loadConfig path)) files := by
  have h := ends_onFiles (store.loadConfig path) files
  rwa [loadConfig_eq] at h

/-- Loading a document, and what follows if that succeeds. -/
theorem Ends.loaded {path what : String} {doc : Document × Format} {result : Except Report β}
    {next : Document × Format → Session (StateM FileSystem) β}
    (hload : files.loadDocument path = .ok doc) (hnext : Ends (next doc) files result after) :
    Ends (onFiles (store.loadDocument path) >>= fun tried => attempt what tried >>= next) files
      result after :=
  (ends_loadDocument files path).bind ((ends_attempt_ok hload files).bind hnext)

variable {config : Option String} {skip : List String} {failure : Failure}

theorem ends_resolveConfig_ok {settings : Config} (h : files.settings config skip = .ok settings) :
    Ends (resolveConfig store config skip) files (.ok settings) files := by
  cases config with
  | none =>
    obtain rfl := Except.ok.inj h
    exact (ends_pure _ files).bind (ends_pure _ files)
  | some path =>
    obtain ⟨found, hfound, rfl⟩ := Except.map_eq_ok.1 h
    exact (ends_loadConfig files path).bind ((ends_attempt_ok hfound files).bind (ends_pure _ files))

theorem ends_resolveConfig_error (h : files.settings config skip = .error failure) :
    ∃ what, Ends (resolveConfig store config skip) files (.error ⟨what, some failure⟩) files := by
  cases config with
  | none => cases h
  | some path =>
    refine ⟨"Failed to load config " ++ path, (ends_loadConfig files path).bind ?_⟩
    have hfound : files.loadConfig path = .error failure := by
      cases hload : files.loadConfig path with
      | ok found => simp [settings, hload, Except.map] at h
      | error cause => simpa [settings, hload, Except.map] using h
    exact (ends_attempt_error hfound files).bind_error

theorem ends_buildPipeline_ok {settings : Config} {pipeline : Pipeline}
    (h : Pipeline.ofConfig settings = .ok pipeline) (files : FileSystem) :
    Ends (buildPipeline settings) files (.ok pipeline) files :=
  ends_attempt_ok (by rw [h]) files

theorem ends_buildPipeline_error {settings : Config} {fault : ConfigFault}
    (h : Pipeline.ofConfig settings = .error fault) (files : FileSystem) :
    Ends (buildPipeline settings) files
      (.error ⟨"Failed to build pipeline", some (.config fault none)⟩) files :=
  ends_attempt_error (by rw [h]) files

end CommandLine
end ApiTidy
