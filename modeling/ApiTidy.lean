import ApiTidy.Address.Basic
import ApiTidy.Address.Edit
import ApiTidy.Address.Lookup
import ApiTidy.Alternatives
import ApiTidy.Binary64.Basic
import ApiTidy.Binary64.Decimal
import ApiTidy.Binary64.Layout
import ApiTidy.Binary64.Shortest
import ApiTidy.Bodies
import ApiTidy.Change
import ApiTidy.CommandLine.Arguments
import ApiTidy.CommandLine.Run
import ApiTidy.ComponentKind
import ApiTidy.Config.Basic
import ApiTidy.Config.Decoder
import ApiTidy.Config.Reader
import ApiTidy.Corrections
import ApiTidy.Document.Basic
import ApiTidy.Document.Edit
import ApiTidy.Document.Prune
import ApiTidy.Document.Reachability
import ApiTidy.Document.Text
import ApiTidy.Edit
import ApiTidy.Entries
import ApiTidy.Examples
import ApiTidy.Failure
import ApiTidy.FilePath
import ApiTidy.FileStore
import ApiTidy.FileSystem
import ApiTidy.Format
import ApiTidy.Json.Numeral
import ApiTidy.Json.Printer
import ApiTidy.Json.Quoted
import ApiTidy.Json.Reader
import ApiTidy.Json.Token
import ApiTidy.Main
import ApiTidy.MediaTypes
import ApiTidy.Node.Basic
import ApiTidy.Node.Merge
import ApiTidy.Node.Walk
import ApiTidy.Nullable
import ApiTidy.Number
import ApiTidy.Parameters
import ApiTidy.Pass
import ApiTidy.PassName
import ApiTidy.Pipeline
import ApiTidy.Proofs.Address.Atomic
import ApiTidy.Proofs.Address.Place
import ApiTidy.Proofs.Alternatives
import ApiTidy.Proofs.Bodies
import ApiTidy.Proofs.Change
import ApiTidy.Proofs.Commuting
import ApiTidy.Proofs.Components
import ApiTidy.Proofs.Corrections
import ApiTidy.Proofs.Counts
import ApiTidy.Proofs.Edit
import ApiTidy.Proofs.Entries
import ApiTidy.Proofs.ExampleReferences
import ApiTidy.Proofs.Examples
import ApiTidy.Proofs.Except
import ApiTidy.Proofs.Extraction
import ApiTidy.Proofs.FailedExtraction
import ApiTidy.Proofs.Json.Mapping
import ApiTidy.Proofs.Json.Numeral
import ApiTidy.Proofs.Json.Quoted
import ApiTidy.Proofs.Json.RoundTrip
import ApiTidy.Proofs.Json.Scan
import ApiTidy.Proofs.MediaTypes
import ApiTidy.Proofs.Node
import ApiTidy.Proofs.Nullable
import ApiTidy.Proofs.Orphans
import ApiTidy.Proofs.Parameters
import ApiTidy.Proofs.Pipeline
import ApiTidy.Proofs.PrunedReferences
import ApiTidy.Proofs.Pruning
import ApiTidy.Proofs.Reachability
import ApiTidy.Proofs.ReadBack
import ApiTidy.Proofs.References
import ApiTidy.Proofs.Regions
import ApiTidy.Proofs.Rendering
import ApiTidy.Proofs.Responses
import ApiTidy.Proofs.Root
import ApiTidy.Proofs.Settled
import ApiTidy.Proofs.Steps
import ApiTidy.Proofs.Text.Numeral
import ApiTidy.Proofs.Trimming
import ApiTidy.Proofs.Yaml.Style
import ApiTidy.Proofs.Yaml.Lexer
import ApiTidy.Proofs.Yaml.Mapping
import ApiTidy.Proofs.Yaml.Opening
import ApiTidy.Reference.Basic
import ApiTidy.Relocation
import ApiTidy.Responses
import ApiTidy.Text.Blank
import ApiTidy.Text.Extending
import ApiTidy.Text.Numeral
import ApiTidy.Text.Quotation
import ApiTidy.Text.Ranges
import ApiTidy.Text.Replace
import ApiTidy.Text.Split
import ApiTidy.Text.Unseen
import ApiTidy.Yaml.Character
import ApiTidy.Yaml.Fault
import ApiTidy.Yaml.Meaning
import ApiTidy.Yaml.Printer
import ApiTidy.Yaml.Reader
import ApiTidy.Yaml.Style
import ApiTidy.Yaml.Tag
import ApiTidy.Yaml.Token
import ApiTidy.Yaml.Token.Block
import ApiTidy.Yaml.Token.Gap
import ApiTidy.Yaml.Token.Lexer
import ApiTidy.Yaml.Token.Plain
import ApiTidy.Yaml.Token.Property
import ApiTidy.Yaml.Token.Quoted
import ApiTidy.Yaml.Tree
import ApiTidy.Yaml.Tree.Reader
import ApiTidy.Yaml.Value
import ApiTidy.Proofs.FileSystem
import ApiTidy.Proofs.Session
import ApiTidy.Proofs.Commands
import ApiTidy.Proofs.Yaml.DoubleQuoted
import ApiTidy.Proofs.Yaml.SingleQuoted
import ApiTidy.Proofs.Yaml.Plain
import ApiTidy.Proofs.Yaml.Block
import ApiTidy.Proofs.Yaml.Scalar
import ApiTidy.Proofs.Yaml.Collection
import ApiTidy.Proofs.Yaml.Spelling
import ApiTidy.Proofs.Yaml.Tokens
import ApiTidy.Proofs.Yaml.Shown
import ApiTidy.Proofs.Yaml.Tree
import ApiTidy.Proofs.Yaml.RoundTrip
import ApiTidy.Proofs.Yaml.ReadBack
import ApiTidy.Proofs.Sweeps
import ApiTidy.Proofs.Alike
import ApiTidy.Proofs.KeyOrder
import ApiTidy.Proofs.Renaming
import ApiTidy.Proofs.Address.Way
import ApiTidy.Proofs.Address.Writing
import ApiTidy.Proofs.Address.Deleting
import ApiTidy.Proofs.Address.Moving
import ApiTidy.Proofs.Address.Errors
import ApiTidy.Proofs.MediaTypeGroups
import ApiTidy.Proofs.Relocation
import ApiTidy.Proofs.DeclaredParameters
import ApiTidy.Proofs.Merging
import ApiTidy.Proofs.Walk
import ApiTidy.Proofs.Duplicates
import ApiTidy.Proofs.ReferencePlaces
import ApiTidy.Proofs.LostReferences
import ApiTidy.Proofs.ExamplePlaces
import ApiTidy.Proofs.Places
import ApiTidy.Proofs.Sequencing
import ApiTidy.Proofs.ParameterLists
import ApiTidy.Proofs.ResponseFields
import ApiTidy.Proofs.Markers
import ApiTidy.Proofs.Security
import ApiTidy.Proofs.Address.Independence
import ApiTidy.Proofs.DanglingReferences
import ApiTidy.Proofs.ExtractionPlaces
import ApiTidy.Proofs.Pointer
import ApiTidy.Proofs.View
import ApiTidy.Proofs.Address.Text
import ApiTidy.Proofs.Text.Replace
import ApiTidy.Proofs.Equality
