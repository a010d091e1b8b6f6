import ApiTidy.Pass

/-!
Pipelines: lists of passes that run one after another up to the first failure. What was edited
before a failure stays edited.
-/
namespace ApiTidy

/-- How many edits each of some named changes made, in the order of the run. -/
abbrev Counts (ν : Type) := List (ν × Nat)

def Counts.total {ν : Type} (counts : Counts ν) : Nat :=
  counts.foldr (fun (_, changes) later => changes + later) 0

/-- How many edits each pass made. -/
abbrev RunReport := Counts PassName

namespace RunReport

/-- The edits of the first pass with a name. -/
def changes? (report : RunReport) (name : String) : Option Nat :=
  (report.find? (·.1.text = name)).map (·.2)

def total (report : RunReport) : Nat := Counts.total report

end RunReport

/-- Passes to run in their order. -/
structure Pipeline where
  passes : List Pass

namespace Pipeline

/-- All passes of a configuration in their order, without those to be skipped. -/
def ofConfig (config : Config) : Except ConfigFault Pipeline :=
  match config.skip.find? fun name => !PassName.isKnown name with
  | some name => .error (.unknownPass name)
  | none =>
    .ok ⟨(PassName.all.filter fun name => !config.skip.contains name.text).map
      (Pass.ofConfig config)⟩

def names (pipeline : Pipeline) : List PassName := pipeline.passes.map Pass.name

/-- Apply named changes one after another. A failure says which change it happened in. -/
def runSteps {ν : Type} (text : ν → String) :
    List (ν × Edit Failure Document Nat) → Edit Failure Document (Counts ν)
  | [] => pure []
  | (name, change) :: rest => do
    let count ← Edit.mapError (.pass (text name)) change
    let later ← runSteps text rest
    return (name, count) :: later

def runPasses (passes : List Pass) : Edit Failure Document RunReport :=
  runSteps PassName.text (passes.map fun pass => (pass.name, pass.apply))

def run (pipeline : Pipeline) : Edit Failure Document RunReport := runPasses pipeline.passes

def describe (pipeline : Pipeline) : String :=
  let quoted := pipeline.names.map fun name => Text.quotation name.text
  "Pipeline \x7b passes: [" ++ ", ".intercalate quoted ++ "] \x7d"

end Pipeline
end ApiTidy
