import ApiTidy.CommandLine.Arguments
import ApiTidy.FileStore
import ApiTidy.Pipeline

/-!
Running the commands. A command says what it does line by line; if it fails, the report of the
failure names what was tried and the chain of causes.
-/
namespace ApiTidy.CommandLine

/-- What a failed command was about, and the failure, if it is not the command's own verdict. -/
structure Report where
  attempt : String
  cause : Option Failure
  deriving DecidableEq, Repr

namespace Report

def indentLines (indent : Nat) (text : String) : String :=
  ("\n" ++ String.ofList (List.replicate indent ' ')).intercalate
    ((Text.pieces '\n' text.toList).map String.ofList)

/-- A number, at the right of a column of five. -/
def rightAligned (n : Nat) : String :=
  String.ofList (List.replicate (5 - (toString n).length) ' ') ++ toString n

def numbered (n : Nat) (cause : String) : String :=
  "\n" ++ rightAligned n ++ ": " ++ indentLines 7 cause

/-- The causes below each other; several are numbered. -/
def causesText : List String → String
  | [] => ""
  | [cause] => "\n\nCaused by:\n    " ++ indentLines 4 cause
  | causes => "\n\nCaused by:" ++ String.join (causes.mapIdx numbered)

/-- The report, with the words of the caller for decoding faults. -/
def textWith (describe : DecodeFault → String) (report : Report) : String :=
  let causes := (report.cause.map (Failure.chainWith describe)).getD []
  "Error: " ++ report.attempt ++ causesText causes ++ "\n"

end Report

/-- How a run of the program ended. -/
inductive Outcome where
  | done (output : String)
  | failed (output : String) (report : Report)
  | misused (fault : UsageFault)
  deriving DecidableEq, Repr

namespace Outcome

def exitCode : Outcome → Nat
  | done _ => 0
  | failed _ _ => 1
  | misused _ => 2

def output : Outcome → String
  | done output | failed output _ => output
  | misused _ => ""

/-- What is said about a failure, with the words of the caller for decoding faults. -/
def errorsWith (describe : DecodeFault → String) : Outcome → String
  | done _ => ""
  | failed _ report => report.textWith describe
  | misused fault => fault.message

end Outcome

/-- A command under way: lines said so far, and possibly a report. -/
abbrev Session (m : Type → Type) := ExceptT Report (StateT (List String) m)

variable {m : Type → Type} [Monad m]

def say (line : String) : Session m Unit :=
  modifyThe (List String) fun lines => lines ++ [line]

/-- Put a failure into a report. -/
def attempt {α : Type} (what : String) : Except Failure α → Session m α
  | .ok answer => return answer
  | .error failure => throw ⟨what, some failure⟩

def onFiles {α : Type} (action : m α) : Session m α := fun lines => do
  return (.ok (← action), lines)

/-- The configuration of a file, or the standard one, with further passes to skip. -/
def resolveConfig (store : FileStore m) (path : Option String) (skip : List String) :
    Session m Config := do
  let config ←
    match path with
    | none => pure .standard
    | some path =>
      attempt ("Failed to load config " ++ path) (← onFiles (store.loadConfig path))
  return { config with skip := config.skip ++ skip }

def buildPipeline (config : Config) : Session m Pipeline :=
  attempt "Failed to build pipeline" <|
    match Pipeline.ofConfig config with
    | .ok pipeline => .ok pipeline
    | .error fault => .error (.config fault none)

def passLine (name : PassName) (changes : Nat) : String :=
  "  • " ++ name.text ++ String.ofList (List.replicate (24 - name.text.length) ' ') ++ " "
    ++ toString changes

/-- Run the pipeline over a document and write the result. -/
def transform (store : FileStore m) (input output : String) (config : Option String)
    (skip : List String) (format : Option Format) (verbose : Bool) : Session m Unit := do
  say ("→ Loading document: " ++ input)
  let (doc, inputFormat) ←
    attempt "Failed to load document" (← onFiles (store.loadDocument input))
  let pipeline ← buildPipeline (← resolveConfig store config skip)
  let outputFormat := format.getD inputFormat
  if verbose then
    say ("  Input format: " ++ inputFormat.name)
    say ("  Output format: " ++ outputFormat.name)
    say ("  Passes: " ++ ", ".intercalate (pipeline.names.map PassName.text))
  say ("→ Running " ++ toString pipeline.passes.length ++ " passes...")
  let (report, refined) ←
    attempt "Refinement failed" <|
      match pipeline.run doc with
      | .ok report refined => .ok (report, refined)
      | .error failure _ => .error failure
  for (name, changes) in report do
    say (passLine name changes)
  attempt "Failed to write document" (← onFiles (store.writeDocument refined output outputFormat))
  say "\n✓ Refinement complete!"
  say ("  Total changes: " ++ toString report.total)
  match report.changes? PassName.pruneUnreachable.text with
  | some pruned => say ("  Pruned components: " ++ toString pruned)
  | none => pure ()
  say ("  Output: " ++ output)

/-- What a document holds, which components are unreachable and which references are dangling; the
last is a failure. -/
def check (store : FileStore m) (input : String) (config : Option String) (verbose : Bool) :
    Session m Unit := do
  say ("→ Checking document: " ++ input)
  let (doc, format) ← attempt "Failed to load document" (← onFiles (store.loadDocument input))
  let config ← resolveConfig store config []
  say "\nDocument:"
  say ("  Format: " ++ format.name)
  say ("  Paths: " ++ toString doc.routes.length)
  say ("  Operations: " ++ toString doc.operations.length)
  for kind in ComponentKind.all do
    let count := (doc.componentNames kind).length
    if 0 < count then say ("  " ++ kind.key ++ ": " ++ toString count)
  let removed := (doc.prune config.prune).1.removed
  if removed.isEmpty then say "\n✓ No unreachable components"
  else
    say ("\n⚠ " ++ toString removed.length ++ " unreachable components")
    if verbose then
      for reference in removed do
        say ("  • " ++ reference.text)
  let dangling := doc.danglingReferences
  if dangling.isEmpty then say "✓ No dangling references"
  else
    say ("⚠ " ++ toString dangling.length ++ " dangling references")
    for reference in dangling do
      say ("  • " ++ reference.pointer)
    throw ⟨input ++ " has " ++ toString dangling.length ++ " dangling references", none⟩

def passes (store : FileStore m) (config : Option String) (skip : List String) :
    Session m Unit := do
  let pipeline ← buildPipeline (← resolveConfig store config skip)
  say "Passes:"
  for (name, index) in pipeline.names.zipIdx do
    say ("  " ++ toString (index + 1) ++ ". " ++ name.text)

def runCommand (store : FileStore m) (command : Command) (verbose : Bool) : Session m Unit := do
  if verbose then say "→ Verbose mode enabled"
  match command with
  | .transform input output config skip format =>
    transform store input output config skip format verbose
  | .check input config => check store input config verbose
  | .passes config skip => passes store config skip

def versionText : String := "openapi-refine 0.1.0\n"

def run (store : FileStore m) (arguments : List String) : m Outcome := do
  match Request.ofArguments arguments with
  | .error fault => return .misused fault
  | .ok .help => return .done usageText
  | .ok .version => return .done versionText
  | .ok (.run command verbose) =>
    let (result, lines) ← (runCommand store command verbose).run.run []
    let output := String.join (lines.map (· ++ "\n"))
    match result with
    | .ok () => return .done output
    | .error report => return .failed output report

end ApiTidy.CommandLine
