import ApiTidy.CommandLine.Run

/-! The program on the files of the computer. -/
namespace ApiTidy

def FileFault.ofError (error : IO.Error) : FileFault :=
  match error with
  | .noFileOrDirectory .. | .noSuchThing .. => .notFound
  | .alreadyExists .. => .alreadyExists
  | .inappropriateType _ code _ => if code = 21 then .isDirectory else .notDirectory
  | .invalidArgument _ 36 _ => .nameTooLong
  | .permissionDenied _ code details =>
    .other (details ++ " (os error " ++ toString code ++ ")")
  | unknown => .other (toString unknown)

/-- An action on files, with its error as a value. -/
def onDisk {α : Type} (action : IO α) : IO (Except FileFault α) := do
  match ← action.toBaseIO with
  | .ok answer => return .ok answer
  | .error error => return .error (.ofError error)

def readDisk (path : String) : IO (Except FileFault String) := do
  match ← onDisk (do (← IO.FS.Handle.mk path .read).readBinToEnd) with
  | .error fault => return .error fault
  | .ok content =>
    match String.fromUTF8? content with
    | some text => return .ok text
    | none => return .error .notText

def diskStore : FileStore IO where
  read := readDisk
  isDirectory path := do
    match ← readDisk path with
    | .error .isDirectory => return true
    | _ => return false
  makeDirectory path := onDisk (IO.FS.createDir path)
  write path text := onDisk (IO.FS.writeFile path text)

end ApiTidy

def main (arguments : List String) : IO UInt32 := do
  let outcome ← ApiTidy.CommandLine.run ApiTidy.diskStore arguments
  IO.print outcome.output
  IO.eprint (outcome.errorsWith ApiTidy.DecodeFault.describe)
  return outcome.exitCode.toUInt32
