import ApiTidy.Config.Reader
import ApiTidy.Document.Text
import ApiTidy.FilePath

/-!
Reading and writing documents and configurations. The files are behind a record of operations, so
that the same program runs on the files of a computer and on a file system that is a value.
-/
namespace ApiTidy

/-- What the program does with files. -/
structure FileStore (m : Type → Type) where
  read : String → m (Except FileFault String)
  isDirectory : String → m Bool
  /-- Make a directory whose parent is there. -/
  makeDirectory : String → m (Except FileFault Unit)
  /-- Write a file whose directory is there. -/
  write : String → String → m (Except FileFault Unit)

namespace FileStore
variable {m : Type → Type} [Monad m]

/-- Make a directory; it may be there already. -/
def ensureDirectory (store : FileStore m) (path : String) : m (Except FileFault Unit) := do
  match ← store.makeDirectory path with
  | .ok () => return .ok ()
  | .error fault =>
    if fault ≠ .notFound && (← store.isDirectory path) then return .ok ()
    else return .error fault

/-- Make a directory and all directories on the way; `fuel` bounds how many there are. -/
def makeDirectories (store : FileStore m) : Nat → String → m (Except FileFault Unit)
  | 0, _ => return .ok ()
  | fuel + 1, path => do
    if path.isEmpty then return .ok ()
    else
      match ← store.ensureDirectory path with
      | .error .notFound =>
        match FilePath.parent? path with
        | none => return .error .notFound
        | some parent =>
          match ← makeDirectories store fuel parent with
          | .ok () => store.ensureDirectory path
          | .error fault => return .error fault
      | other => return other

/-- Read a document; its format is that of its extension, or else what it looks like. -/
def loadDocument (store : FileStore m) (path : String) :
    m (Except Failure (Document × Format)) := do
  match ← store.read path with
  | .error fault => return .error (.parse (.unreadable path fault))
  | .ok content =>
    let format := FilePath.format path content
    match Document.parseFrom (some path) content format with
    | .ok doc => return .ok (doc, format)
    | .error failure => return .error failure

def writeDocument (store : FileStore m) (doc : Document) (path : String) (format : Format) :
    m (Except Failure Unit) := do
  let parent := (FilePath.parent? path).getD ""
  match ← store.makeDirectories (parent.length + 1) parent with
  | .error fault => return .error (.write (.directory parent fault))
  | .ok () =>
    match ← store.write path (doc.render format) with
    | .error fault => return .error (.write (.file path fault))
    | .ok () => return .ok ()

def loadConfig (store : FileStore m) (path : String) : m (Except Failure Config) := do
  match ← store.read path with
  | .error fault => return .error (.configUnreadable path fault)
  | .ok content =>
    match Config.parse content with
    | .error fault => return .error (.config fault (some path))
    | .ok config => return .ok config

end FileStore
end ApiTidy
