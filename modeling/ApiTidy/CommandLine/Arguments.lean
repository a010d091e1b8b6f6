import ApiTidy.Format
import ApiTidy.Text.Split

/-!
The arguments of the program: options, then a command with options of its own. A long option has its
value after an equals sign or in the next argument, a short one may also have it attached. No option
but a list may occur twice.
-/
namespace ApiTidy.CommandLine

/-- The commands with their options. -/
inductive Command where
  | transform (input output : String) (config : Option String) (skip : List String)
      (format : Option Format)
  | check (input : String) (config : Option String)
  | passes (config : Option String) (skip : List String)

/-- What the arguments ask for. -/
inductive Request where
  | run (command : Command) (verbose : Bool)
  | help
  | version

inductive UsageFault where
  | noCommand
  | unknownCommand (name : String)
  | unexpected (argument : String)
  | repeated (option : String)
  | noValue (option : String)
  | badValue (option value : String)
  | missing (option : String)
  deriving DecidableEq, Repr

/-- What is shown to one who asks for help or misuses the program. -/
def usageText : String := "Usage: openapi-refine [OPTIONS] <transform|check|passes>\n"

def UsageFault.message (fault : UsageFault) : String :=
  let what :=
    match fault with
    | noCommand => "a command is required"
    | unknownCommand name => "unknown command: " ++ name
    | unexpected argument => "unexpected argument: " ++ argument
    | repeated option => "an option is repeated: --" ++ option
    | noValue option => "a value is required for --" ++ option
    | badValue option value => "invalid value for --" ++ option ++ ": " ++ value
    | missing option => "a required option is missing: --" ++ option
  "error: " ++ what ++ "\n\n" ++ usageText

inductive OptionName where
  | input | output | config | skip | format | verbose | help | version
  deriving DecidableEq, Repr

namespace OptionName

def long : OptionName → String
  | input => "input"
  | output => "output"
  | config => "config"
  | skip => "skip"
  | format => "format"
  | verbose => "verbose"
  | help => "help"
  | version => "version"

/-- The letter of an option; `skip` has none. -/
def letter? : OptionName → Option Char
  | input => some 'i'
  | output => some 'o'
  | config => some 'c'
  | skip => none
  | format => some 'f'
  | verbose => some 'v'
  | help => some 'h'
  | version => some 'V'

def takesValue : OptionName → Bool
  | verbose | help | version => false
  | _ => true

/-- Whether an option asks for a text instead of a run; it ends the arguments. -/
def isRequest : OptionName → Bool
  | help | version => true
  | _ => false

end OptionName

def globalOptions : List OptionName := [.verbose, .help, .version]

def commandOptions? : String → Option (List OptionName)
  | "transform" => some [.input, .output, .config, .skip, .format, .verbose, .help]
  | "check" => some [.input, .config, .verbose, .help]
  | "passes" => some [.config, .skip, .verbose, .help]
  | _ => none

/-- The words for the formats. -/
def formatWord? : String → Option Format
  | "json" => some .json
  | "yaml" => some .yaml
  | _ => none

/-- Options and values as they were given. -/
abbrev Given := List (OptionName × String)

/-- Whether an argument stands for itself: it starts with no hyphen, or is just one. -/
def isOperand (argument : String) : Bool :=
  match argument.toList with
  | ['-'] => true
  | '-' :: _ => false
  | _ => true

/-- Put an option with its value to those given. Only a list may be given more than once, and paths
may not be empty. -/
def give (given : Given) (option : OptionName) (value : String) : Except UsageFault Given :=
  if option ≠ .skip && given.any (·.1 = option) then .error (.repeated option.long)
  else if option.takesValue && option ≠ .skip && value.isEmpty then
    .error (.noValue option.long)
  else if option = .format && (formatWord? value).isNone then .error (.badValue option.long value)
  else .ok (given ++ [(option, value)])

/-- What a run of letters after a hyphen gives, and the last letter if its value is in the next
argument. Letters after one that asks for a text are not read. -/
def readLetters (allowed : List OptionName) :
    Given → List Char → Except UsageFault (Given × Option OptionName)
  | given, [] => .ok (given, none)
  | given, c :: rest =>
    match allowed.find? (·.letter? = some c) with
    | none => .error (.unexpected (String.ofList ['-', c]))
    | some option =>
      if option.isRequest then do return (← give given option "", none)
      else if !option.takesValue then do readLetters allowed (← give given option "") rest
      else
        match rest with
        | [] => .ok (given, some option)
        | '=' :: value | value => do return (← give given option (String.ofList value), none)

def readLong (allowed : List OptionName) (given : Given) (text : List Char) :
    Except UsageFault (Given × Option OptionName) :=
  let (name, value) :=
    match Text.cutAt '=' text with
    | some (name, value) => (name, some value)
    | none => (text, none)
  match allowed.find? (·.long = String.ofList name), value with
  | none, _ => .error (.unexpected (String.ofList ('-' :: '-' :: name)))
  | some option, some value =>
    if option.takesValue then do return (← give given option (String.ofList value), none)
    else .error (.badValue option.long (String.ofList value))
  | some option, none =>
    if option.takesValue then .ok (given, some option)
    else do return (← give given option "", none)

def Given.request? (given : Given) : Option Request :=
  if given.any (·.1 = .help) then some .help
  else if given.any (·.1 = .version) then some .version
  else none

/-- The options at the front of the arguments, up to the first argument that stands for itself. A
request for help or for the version ends them. -/
def readOptions (allowed : List OptionName) :
    Given → Option OptionName → List String → Except UsageFault (Given × List String)
  | given, none, [] => .ok (given, [])
  | _, some option, [] => .error (.noValue option.long)
  | given, some option, argument :: rest => do
    if isOperand argument then
      readOptions allowed (← give given option argument) none rest
    else .error (.noValue option.long)
  | given, none, argument :: rest => do
    match argument.toList with
    | '-' :: '-' :: [] => if rest.isEmpty then return (given, []) else .error (.unexpected argument)
    | '-' :: '-' :: text =>
      let (given, waiting) ← readLong allowed given text
      if given.request?.isSome then return (given, []) else readOptions allowed given waiting rest
    | '-' :: c :: letters =>
      let (given, waiting) ← readLetters allowed given (c :: letters)
      if given.request?.isSome then return (given, []) else readOptions allowed given waiting rest
    | _ => return (given, argument :: rest)

def Given.value? (given : Given) (option : OptionName) : Option String := given.lookup option

def Given.required (given : Given) (option : OptionName) : Except UsageFault String :=
  match given.value? option with
  | some value => .ok value
  | none => .error (.missing option.long)

/-- The items of all lists given, separated by commas. -/
def Given.skipped (given : Given) : List String :=
  (given.filter (·.1 = .skip)).flatMap fun (_, value) =>
    (Text.pieces ',' value.toList).map String.ofList

def Command.ofGiven (name : String) (given : Given) : Except UsageFault Command := do
  match name with
  | "transform" =>
    return .transform (← given.required .input) (← given.required .output) (given.value? .config)
      given.skipped ((given.value? .format).bind formatWord?)
  | "check" => return .check (← given.required .input) (given.value? .config)
  | "passes" => return .passes (given.value? .config) given.skipped
  | _ => .error (.unknownCommand name)

/-- What the arguments after `help` ask for: help with the program or with one command. -/
def Request.ofTopics : List String → Except UsageFault Request
  | [] => .ok .help
  | name :: rest =>
    if name = "help" || (commandOptions? name).isSome then
      match rest with
      | [] => .ok .help
      | argument :: _ => .error (.unexpected argument)
    else .error (.unknownCommand name)

def Request.ofArguments (arguments : List String) : Except UsageFault Request := do
  let (global, rest) ← readOptions globalOptions [] none arguments
  match Given.request? global, rest with
  | some request, _ => return request
  | none, [] => .error .noCommand
  | none, "help" :: topics => Request.ofTopics topics
  | none, name :: rest =>
    match commandOptions? name with
    | none => .error (.unknownCommand name)
    | some allowed =>
      let (given, operands) ← readOptions allowed [] none rest
      match Given.request? given, operands with
      | some request, _ => return request
      | none, [] =>
        let verbose := (global ++ given).any (·.1 = .verbose)
        return .run (← Command.ofGiven name given) verbose
      | none, operand :: _ => .error (.unexpected operand)

end ApiTidy.CommandLine
