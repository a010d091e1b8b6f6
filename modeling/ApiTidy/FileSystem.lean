import ApiTidy.FileStore

/-!
A file system that is a value: what is at which place. A path is followed name by name; a name in
what is no directory, or in nothing, leads nowhere. Names and paths are of limited length, in
octets.
-/
namespace ApiTidy

inductive FileEntry where
  | directory
  | file (content : ByteArray)

def FileEntry.isDirectory : FileEntry → Bool
  | .directory => true
  | .file _ => false

/-- A place: the names from the topmost directory to it, each after a slash. -/
structure Place where
  text : String
  deriving DecidableEq, Repr

namespace Place

def top : Place := ⟨""⟩

def child (place : Place) (name : String) : Place := ⟨place.text ++ "/" ++ name⟩

/-- The directory that a place is in; the topmost one is in itself. -/
def parent (place : Place) : Place :=
  ⟨String.ofList ((place.text.toList.reverse.dropWhile (· ≠ '/')).tail.reverse)⟩

end Place

/-- All places at which there is something, apart from the topmost directory. -/
structure FileSystem where
  entries : List (Place × FileEntry)
  /-- The place that paths start from which do not start with a slash. -/
  workingDirectory : Place

namespace FileSystem

/-- What is at a place; the topmost directory is always there. -/
def entry? (files : FileSystem) (place : Place) : Option FileEntry :=
  if place = .top then some .directory else files.entries.lookup place

/-- Whether a place can hold other places. -/
def checkDirectory (files : FileSystem) (place : Place) : Except FileFault Unit :=
  match files.entry? place with
  | some .directory => .ok ()
  | some (.file _) => .error .notDirectory
  | none => .error .notFound

def maxName : Nat := 255

def maxPath : Nat := 4095

def checkName (name : String) : Except FileFault Unit :=
  if maxName < name.utf8ByteSize then .error .nameTooLong else .ok ()

def checkPath (path : String) : Except FileFault Unit :=
  if path.toList.contains '\x00' then .error .nulInName
  else if path.isEmpty then .error .notFound
  else if maxPath < path.utf8ByteSize then .error .nameTooLong
  else .ok ()

/-- Follow names from a place. -/
def follow (files : FileSystem) : Place → List String → Except FileFault Place
  | place, [] => .ok place
  | place, name :: rest => do
    files.checkDirectory place
    if name = "" || name = "." then follow files place rest
    else if name = ".." then follow files place.parent rest
    else do
      checkName name
      follow files (place.child name) rest

/-- Where a path starts, and its names. -/
def start (files : FileSystem) (path : String) : Place × List String :=
  match path.toList with
  | '/' :: rest => (.top, (Text.pieces '/' rest).map String.ofList)
  | chars => (files.workingDirectory, (Text.pieces '/' chars).map String.ofList)

/-- The place that a path leads to; there may be nothing. -/
def place (files : FileSystem) (path : String) : Except FileFault Place := do
  checkPath path
  let (base, names) := files.start path
  files.follow base names

/-- The last name of a path and the directory before it; slashes after the name do not count. -/
def lastName (files : FileSystem) (path : String) : Except FileFault (Place × String) := do
  checkPath path
  let (base, names) := files.start path
  let names := (names.reverse.dropWhile (· = "")).reverse
  let place ← files.follow base names.dropLast
  files.checkDirectory place
  return (place, names.getLast?.getD ".")

def put (files : FileSystem) (place : Place) (entry : FileEntry) : FileSystem :=
  { files with entries := (place, entry) :: files.entries.filter (·.1 ≠ place) }

def readBytes (files : FileSystem) (path : String) : Except FileFault ByteArray := do
  match files.entry? (← files.place path) with
  | some (.file content) => return content
  | some .directory => .error .isDirectory
  | none => .error .notFound

def readText (files : FileSystem) (path : String) : Except FileFault String := do
  match String.fromUTF8? (← files.readBytes path) with
  | some text => return text
  | none => .error .notText

def isDirectory (files : FileSystem) (path : String) : Bool :=
  match files.place path with
  | .ok place => (files.entry? place).any (·.isDirectory)
  | .error _ => false

/-- Make a directory where nothing is. -/
def makeDirectory (files : FileSystem) (path : String) : Except FileFault FileSystem := do
  let (parent, name) ← files.lastName path
  checkName name
  if name = "." || name = ".." || (files.entry? (parent.child name)).isSome then
    .error .alreadyExists
  else return files.put (parent.child name) .directory

/-- Write a file; a path that ends with a slash or with dots is one of a directory. -/
def writeText (files : FileSystem) (path text : String) : Except FileFault FileSystem := do
  let (parent, name) ← files.lastName path
  if path.toList.getLast? = some '/' || name = "." || name = ".." then .error .isDirectory
  else
    checkName name
    if (files.entry? (parent.child name)).any (·.isDirectory) then .error .isDirectory
    else return files.put (parent.child name) (.file text.toUTF8)

/-- Keep the outcome of an edit, unless it fails. -/
def commit (edit : FileSystem → Except FileFault FileSystem) :
    StateM FileSystem (Except FileFault Unit) := fun files =>
  match edit files with
  | .ok changed => (.ok (), changed)
  | .error fault => (.error fault, files)

/-- The operations of the program on a file system that is a value. -/
def store : FileStore (StateM FileSystem) where
  read path := return (← get).readText path
  isDirectory path := return (← get).isDirectory path
  makeDirectory path := commit (·.makeDirectory path)
  write path text := commit (·.writeText path text)

end FileSystem
end ApiTidy
