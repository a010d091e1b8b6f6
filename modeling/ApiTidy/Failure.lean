import ApiTidy.Address.Basic
import ApiTidy.Format
import ApiTidy.Json.Token
import ApiTidy.Text.Quotation
import ApiTidy.Yaml.Fault

/-!
What can go wrong, as causes. `messageWith` puts a failure into words and leaves the words for
decoding faults to its caller; `message` uses the library's own.
-/
namespace ApiTidy

/-- What the operating system says about a file. -/
inductive FileFault where
  | notFound
  | alreadyExists
  | notDirectory
  | isDirectory
  | nameTooLong
  | nulInName
  | notText
  | other (text : String)
  deriving DecidableEq, Repr

def FileFault.message : FileFault → String
  | .notFound => "No such file or directory (os error 2)"
  | .alreadyExists => "File exists (os error 17)"
  | .notDirectory => "Not a directory (os error 20)"
  | .isDirectory => "Is a directory (os error 21)"
  | .nameTooLong => "File name too long (os error 36)"
  | .nulInName => "file name contained an unexpected NUL byte"
  | .notText => "stream did not contain valid UTF-8"
  | .other text => text

/-- Why a value does not fit the fields of a configuration. -/
inductive FieldFault where
  | unexpected (wanted : String)
  | missing (field : String)
  | unknown (field : String)
  | repeated (field : String)
  deriving DecidableEq, Repr

def FieldFault.describe : FieldFault → String
  | .unexpected wanted => "expected " ++ wanted
  | .missing field => "missing field: " ++ field
  | .unknown field => "unknown field: " ++ field
  | .repeated field => "repeated field: " ++ field

inductive DecodeFault where
  | json (fault : Json.Fault)
  | yaml (fault : Yaml.Fault)
  | field (fault : FieldFault)
  deriving DecidableEq, Repr

def DecodeFault.describe : DecodeFault → String
  | .json fault => fault.describe
  | .yaml fault => fault.describe
  | .field fault => fault.describe

inductive ParseFault where
  | unreadable (path : String) (fault : FileFault)
  | malformed (format : Format) (fault : DecodeFault) (source : Option String)
  deriving DecidableEq, Repr

inductive ConfigFault where
  | malformed (fault : DecodeFault)
  | unsupportedVersion (version : Nat)
  | unknownSkip (name : String)
  | emptyMatcher (index : Nat)
  | relativeBase (base : String)
  | relativeRoute (route : String)
  | unnamedExtraction (path : String)
  | unknownPass (name : String)
  deriving DecidableEq, Repr

def supportedVersion : Nat := 1

inductive DocumentFault where
  | rootShape (found : Shape)
  | rootNotMapping
  | refused (reason : String)
  deriving DecidableEq, Repr

inductive WriteFault where
  | directory (path : String) (fault : FileFault)
  | file (path : String) (fault : FileFault)
  deriving DecidableEq, Repr

/-- Why something could not be done. A failure of a pass holds its cause. -/
inductive Failure where
  | parse (fault : ParseFault)
  | configUnreadable (path : String) (fault : FileFault)
  /-- The source is the file that the configuration was read from. -/
  | config (fault : ConfigFault) (source : Option String)
  | document (fault : DocumentFault)
  | write (fault : WriteFault)
  | address (fault : AddressError)
  | pass (name : String) (cause : Failure)
  deriving DecidableEq, Repr

def ParseFault.messageWith (describe : DecodeFault → String) : ParseFault → String
  | .unreadable path fault => "Failed to read document " ++ path ++ ": " ++ fault.message
  | .malformed format fault source =>
    "Failed to parse " ++ format.name ++ " document: " ++ describe fault
      ++ source.elim "" fun path => " (" ++ path ++ ")"

def ConfigFault.messageWith (describe : DecodeFault → String) : ConfigFault → String
  | .malformed fault => "Failed to parse config YAML: " ++ describe fault
  | .unsupportedVersion version =>
    "unsupported config version " ++ toString version ++ " (expected "
      ++ toString supportedVersion ++ ")"
  | .unknownSkip name => "unknown pass in skip: " ++ name
  | .emptyMatcher index =>
    "strip_parameters[" ++ toString index ++ "] needs name_suffix or ref_suffix"
  | .relativeBase base => "relocation prefix must start with '/': " ++ base
  | .relativeRoute route => "relocated route must start with '/': " ++ route
  | .unnamedExtraction path => "extraction of " ++ path ++ " has an empty name"
  | .unknownPass name => "unknown pass: " ++ name

def DocumentFault.message : DocumentFault → String
  | .rootShape found => "document root must be a mapping, found a " ++ found.name
  | .rootNotMapping => "document root is not a mapping"
  | .refused reason => reason

def WriteFault.message : WriteFault → String
  | .directory path fault => "Failed to create directory " ++ path ++ ": " ++ fault.message
  | .file path fault => "Failed to write " ++ path ++ ": " ++ fault.message

namespace Failure

/-- The failure in words; the failures inside it are repeated in it. -/
def messageWith (describe : DecodeFault → String) : Failure → String
  | parse fault => "Parse error: " ++ fault.messageWith describe
  | configUnreadable path fault =>
    "Config error: Failed to read config file " ++ Text.quotation path ++ ": " ++ fault.message
  | config fault source =>
    "Config error: " ++ fault.messageWith describe
      ++ source.elim "" fun path => " (in " ++ Text.quotation path ++ ")"
  | document fault => "Invalid document: " ++ fault.message
  | write fault => "Write error: " ++ fault.message
  | address fault => "Path error: " ++ fault.message
  | pass name cause => "Pass `" ++ name ++ "` failed: " ++ messageWith describe cause

def message (failure : Failure) : String := failure.messageWith DecodeFault.describe

/-- The failure and the failures inside it, each in words. -/
def chainWith (describe : DecodeFault → String) : Failure → List String
  | pass name cause => messageWith describe (pass name cause) :: chainWith describe cause
  | address fault => [messageWith describe (address fault), fault.message]
  | failure => [messageWith describe failure]

end Failure
end ApiTidy
