-- SUMMARY: Reading and writing files, and a file system held in memory.
import Asm65.Text

/-!
# Files

The program reads and writes files through a `FileStore`, so that it can run on a file
system that is only a value, a `Disk`. Paths lead through it name by name, as they do through
a real one, and fail for the same reasons.
-/
namespace Asm65.CommandLine

/-- Why a file cannot be read or written. -/
inductive FileError where
  | notFound
  | notDirectory
  | isDirectory
  | noSpace
  | nameTooLong
  | other (message : String)
  deriving DecidableEq

def FileError.message : FileError → String
  | notFound => "No such file or directory (os error 2)"
  | notDirectory => "Not a directory (os error 20)"
  | isDirectory => "Is a directory (os error 21)"
  | noSpace => "No space left on device (os error 28)"
  | nameTooLong => "File name too long (os error 36)"
  | other message => message

structure FileStore (m : Type → Type) where
  read : (path : Text) → m (Except FileError (List UInt8))
  write : (path : Text) → (bytes : List UInt8) → m (Except FileError Unit)

/-! ## Paths -/

namespace Path

/-- The most bytes that a name between slashes may have. -/
def nameLimit : Nat := 255

/-- The most bytes that a whole path may have. -/
def pathLimit : Nat := 4095

/-- The number of bytes in UTF-8. -/
def size (t : Text) : Nat := t.foldr (fun c n => c.utf8Size + n) 0

/-- The names between slashes. -/
def components (path : Text) : List Text := (path.splitOn '/').filter (· ≠ [])

def isAbsolute (path : Text) : Bool := path.head? = some '/'

/-- The path can only mean a directory. -/
def endsInSlash (path : Text) : Bool := path.getLast? = some '/'

/-- The names that every directory has for itself and for the one it is in. -/
def isDots (name : Text) : Bool := name = ['.'] || name = ['.', '.']

/-- The same file with another extension: the part after the last dot of its name is
replaced, unless that dot is the name's first character. A name that would then stand for a
directory is left as that directory. -/
def withExtension (path extension : Text) : Text :=
  let name := (path.reverse.takeWhile (· ≠ '/')).reverse
  let directory := (path.reverse.dropWhile (· ≠ '/')).reverse
  let beforeDot := (name.reverse.dropWhile (· ≠ '.')).reverse.dropLast
  let stem := if beforeDot = [] then name else beforeDot
  if name = [] ∨ isDots name then path
  else if stem = ['.'] then directory ++ ['.', '.']
  else directory ++ stem ++ '.' :: extension

end Path

/-! ## A file system in memory -/

/-- The names that lead from the root to a file or directory. -/
abbrev Route := List Text

/-- Files that are no storage. -/
inductive Device where
  /-- Empty to read; what is written is dropped. -/
  | null
  /-- Empty to read; nothing fits in. -/
  | full
  /-- What is written appears on the standard output. -/
  | output
  deriving DecidableEq

def devices : List (Route × Device) :=
  [("null", Device.null), ("stdin", .null), ("full", .full), ("stdout", .output)].map
    fun device => (["dev".toList, device.1.toList], device.2)

/-- The directories of the root that are there from the beginning. -/
def rootDirectories : List Route :=
  ["bin", "dev", "etc", "home", "lib", "media", "mnt", "opt", "proc", "root", "run", "sbin", "srv",
    "sys", "tmp", "usr", "var"].map fun name => [name.toList]

/-- Files in a tree. Directories are there because of the files in them, apart from those of
the root and the working directory. -/
structure Disk where
  files : List (Route × List UInt8)
  /-- What was written to the standard output. -/
  output : List UInt8

/-- What a path leads to. -/
inductive Place where
  | directory (route : Route)
  | file (route : Route) (bytes : List UInt8)
  | device (device : Device)
  | vacant (route : Route)

namespace Disk

/-- The working directory. Its own name is empty, so that no path can spell it. -/
def current : Route := ["tmp".toList, []]

/-- A disk with files in the working directory. -/
def ofFiles (files : List (Text × List UInt8)) : Disk :=
  ⟨files.map fun file => (current ++ Path.components file.1, file.2), []⟩

def isDirectory (d : Disk) (route : Route) : Bool :=
  (current :: rootDirectories ++ d.files.map Prod.fst).any fun other => route.isPrefixOf other

def place (d : Disk) (route : Route) : Place :=
  match devices.lookup route, d.files.lookup route with
  | some device, _ => .device device
  | none, some bytes => .file route bytes
  | none, none => if d.isDirectory route then .directory route else .vacant route

/-- One step from a directory. The parent of the root is the root itself. -/
def child (d : Disk) (route : Route) (name : Text) : Except FileError Place :=
  if name = ['.'] then .ok (.directory route)
  else if name = ['.', '.'] then .ok (.directory route.dropLast)
  else if Path.nameLimit < Path.size name then .error .nameTooLong
  else .ok (d.place (route ++ [name]))

/-- Follow names from a place. -/
def follow (d : Disk) : Place → List Text → Except FileError Place
  | place, [] => .ok place
  | .directory route, name :: rest => (d.child route name).bind fun place => d.follow place rest
  | .vacant _, _ :: _ => .error .notFound
  | .file .., _ :: _ | .device _, _ :: _ => .error .notDirectory

/-- Follow names from where a path begins: the root or the working directory. -/
def followFrom (d : Disk) (path : Text) (names : List Text) : Except FileError Place :=
  if Path.pathLimit < Path.size path then .error .nameTooLong
  else d.follow (.directory (if Path.isAbsolute path then [] else current)) names

def read (d : Disk) (path : Text) : Except FileError (List UInt8) := do
  match ← d.followFrom path (Path.components path) with
  | .directory _ => .error .isDirectory
  | .file _ bytes => if Path.endsInSlash path then .error .notDirectory else .ok bytes
  | .device _ => if Path.endsInSlash path then .error .notDirectory else .ok []
  | .vacant _ => .error .notFound

def put (d : Disk) (place : Place) (bytes : List UInt8) : Except FileError Disk :=
  match place with
  | .directory _ => .error .isDirectory
  | .file route _ | .vacant route =>
    .ok { d with files := d.files.filter (fun file => file.1 ≠ route) ++ [(route, bytes)] }
  | .device .null => .ok d
  | .device .full => if bytes = [] then .ok d else .error .noSpace
  | .device .output => .ok { d with output := d.output ++ bytes }

/-- Write a file, which is made if it is not there. The directory it is in has to exist; that
the path may name no directory itself is judged before the name is looked up. -/
def write (d : Disk) (path : Text) (bytes : List UInt8) : Except FileError Disk := do
  match ← d.followFrom path (Path.components path).dropLast, (Path.components path).getLast? with
  | .directory route, some name =>
    if Path.isDots name || Path.endsInSlash path then .error .isDirectory
    else d.put (← d.child route name) bytes
  | .directory _, none => .error .isDirectory
  | .vacant _, _ => .error .notFound
  | .file .., _ | .device _, _ => .error .notDirectory

/-- The files of the working directory by their paths in it. -/
def localFiles (d : Disk) : List (Text × List UInt8) :=
  (d.files.filter fun file => current.isPrefixOf file.1).map fun file =>
    (['/'].intercalate (file.1.drop current.length), file.2)

/-- A disk as a store of files. -/
def store : FileStore (StateM Disk) where
  read path := do return (← get).read path
  write path bytes := do
    match (← get).write path bytes with
    | .ok d => set d; return .ok ()
    | .error e => return .error e

end Disk

end Asm65.CommandLine
