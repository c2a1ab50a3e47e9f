import LogicProgram.Error

/-!
# Files

The part of a file system that a command sees: files by their path from the
working directory, and directories. A path is followed name by name, so that
every name but the last has to be a directory, also if two dots lead back from
it. Errors are worded like the system's.
-/

namespace LogicProgram

/-- A path as the names on it; those of an absolute path follow a slash. Two dots
stand only where they lead out of the working directory. -/
abbrev Path := List Text

namespace Path

/-- The name of the first directory of absolute paths. -/
def rootName : Text := "/"

/-- The name of the same directory. -/
def sameName : Text := "."

/-- The name of the directory that holds a directory. -/
def upName : Text := ".."

/-- A text split at every slash. -/
def splitSlashes : Text → List Text
  | [] => [[]]
  | b :: r =>
    match splitSlashes r with
    | [] => [[b]]
    | t :: ts => if Text.isChar '/' b then [] :: t :: ts else (b :: t) :: ts

/-- The directory that holds a path. -/
def parent (p : Path) : Path :=
  if p == [rootName] then p
  else if p.isEmpty || p.getLast? == some upName then p ++ [upName]
  else p.dropLast

/-- One more name on a path. -/
def append (p : Path) (name : Text) : Path :=
  if name.isEmpty || name == sameName then p
  else if name == upName then p.parent
  else p ++ [name]

/-- Where a text starts to be followed. -/
def start (t : Text) : Path := if t.head?.any (Text.isChar '/') then [rootName] else []

/-- The names on a path, whether there is anything or not. -/
def ofText (t : Text) : Path := (splitSlashes t).foldl append (start t)

/-- A path as it is written. -/
def text : Path → Text
  | [] => sameName
  | name :: rest => if name == rootName then name ++ Text.join "/" rest else Text.join "/" (name :: rest)

/-- The text of a path without its last name and the slash before it. -/
def parentText (t : Text) : Text :=
  let isSlash := Text.isChar '/'
  (((t.reverse.dropWhile isSlash).dropWhile (!isSlash ·)).drop 1).reverse

end Path

/-- What stands at a path. -/
inductive Disk.Item where
  | file (content : Text)
  | directory
deriving DecidableEq, Repr

/-- Why nothing can be done at a path. -/
inductive Disk.Failure where
  | missing
  /-- Something on the way to it is not a directory. -/
  | notDirectory
  | isDirectory
  /-- Something is there already. -/
  | present
  /-- A name on it, or all of it, is too long. -/
  | tooLong
  /-- It cannot be a path. -/
  | notPath
deriving DecidableEq, Repr

def Disk.Failure.text : Disk.Failure → Text
  | .missing => "no such file or directory"
  | .notDirectory => "not a directory"
  | .isDirectory => "is a directory"
  | .present => "file exists"
  | .tooLong => "file name too long"
  | .notPath => "invalid argument"

/-- Files and directories. -/
structure Disk where
  /-- The files with their contents, at most one at each path. -/
  files : List (Path × Text)
  /-- Directories, besides those that hold files. -/
  directories : List Path
deriving Repr, Inhabited

namespace Disk

/-- The greatest number of bytes of a name. -/
def nameLimit : Nat := 255

/-- The greatest number of bytes of a path. -/
def pathLimit : Nat := 4095

/-- The device that holds nothing, whatever is written to it. -/
def nullDevice : Path := [Path.rootName, "dev", "null"]

def file? (d : Disk) (p : Path) : Option Text :=
  if p == nullDevice then some [] else (d.files.find? (·.1 == p)).map (·.2)

/-- Whether there is a directory. The working directory and those that hold it
are always there. -/
def isDirectory (d : Disk) (p : Path) : Bool :=
  p == [Path.rootName] || p.all (· == Path.upName)
    || (nullDevice :: d.files.map (·.1) ++ d.directories).any fun q =>
      p.isPrefixOf q && (d.file? p).isNone

/-- What stands at a path whose names have been followed. -/
def item (d : Disk) (p : Path) : Except Failure Item :=
  match d.file? p with
  | some content => .ok (.file content)
  | none => if d.isDirectory p then .ok .directory else .error .missing

/-- Follows one name from a path, which has to be a directory. -/
def enter (d : Disk) (p : Path) (name : Text) : Except Failure Path := do
  match ← d.item p with
  | .file _ => throw .notDirectory
  | .directory => if nameLimit < name.length then throw .tooLong else return p.append name

def follow (d : Disk) (p : Path) (names : List Text) : Except Failure Path := names.foldlM d.enter p

/-- Whether a text can be a path. -/
def checkPath (path : Text) : Except Failure Unit :=
  if path.contains 0 then .error .notPath
  else if path.isEmpty then .error .missing
  else if pathLimit < path.length then .error .tooLong
  else .ok ()

/-- What stands at a path. After a slash it has to be a directory. -/
def look (d : Disk) (path : Text) : Except Failure Item := do
  checkPath path
  d.item (← d.follow (.start path) (Path.splitSlashes path))

/-- The directory in which the last name of a path stands, that name, and whether
a slash follows it. -/
def lookParent (d : Disk) (path : Text) : Except Failure (Path × Text × Bool) := do
  checkPath path
  let names := (Path.splitSlashes path).reverse
  let written := names.dropWhile List.isEmpty
  let p ← d.follow (.start path) written.tail.reverse
  let _ ← d.enter p Path.sameName
  return (p, written.headD Path.sameName, written.length < names.length)

/-- Whether a name leads to a directory wherever it stands. -/
def isRelative (name : Text) : Bool := name == Path.sameName || name == Path.upName

/-- What went wrong with an operation at a path. -/
def failed (operation path : Text) (f : Failure) : Error :=
  .plain (operation ++ " " ++ path ++ ": " ++ f.text)

/-- The content of a file, with the failure if there is none. -/
def content (d : Disk) (path : Text) : Except (Failure × Error) Text :=
  match d.look path with
  | .ok (.file content) => .ok content
  | .ok .directory => .error (.isDirectory, failed "read" path .isDirectory)
  | .error f => .error (f, failed "open" path f)

/-- The content of a file that a command needs. -/
def read (d : Disk) (path : Text) : Except Error Text :=
  match d.content path with
  | .ok t => .ok t
  | .error (_, e) => .error (.caused (.unreadableFile path) .unknown e)

/-- The disk with a file, whose directory must be there. -/
def create (d : Disk) (path content : Text) : Except Failure Disk := do
  let (directory, name, isMarked) ← d.lookParent path
  if isMarked || isRelative name then throw .isDirectory
  let p ← d.enter directory name
  match d.item p with
  | .ok .directory => throw .isDirectory
  | .ok (.file _) =>
    return { d with files := d.files.map fun (q, t) => if q = p then (q, content) else (q, t) }
  | .error _ => return { d with files := d.files ++ [(p, content)] }

def write (d : Disk) (path content : Text) : Except Error Disk :=
  (d.create path content).mapError (failed "open" path)

/-- The disk with one more directory, in one that must be there. -/
def createDirectory (d : Disk) (path : Text) : Except Failure Disk := do
  let (directory, name, _) ← d.lookParent path
  if isRelative name then throw .present
  let p ← d.enter directory name
  match d.item p with
  | .ok _ => throw .present
  | .error _ => return { d with directories := d.directories ++ [p] }

/-- Steps that change a disk. What they did before a failure stays. -/
abbrev Changing := ExceptT Error (StateM Disk)

/-- Makes a directory and, before it, those on the way to it, of which there are
at most `n`. -/
def makeDirectories : (n : Nat) → (path : Text) → Changing Unit
  | 0, _ => return
  | n + 1, path => do
    match (← get).look path with
    | .ok .directory => return
    | .ok (.file _) => throw (failed "mkdir" path .notDirectory)
    | .error _ =>
      let parent := Path.parentText path
      unless parent.isEmpty do makeDirectories n parent
      match (← get).createDirectory path with
      | .ok d => set d
      | .error f =>
        match (← get).look path with
        | .ok .directory => return
        | _ => throw (failed "mkdir" path f)

/-- Makes a directory and all on the way to it. -/
def makeDirectory (path : Text) : Changing Unit := makeDirectories (path.length + 1) path

end Disk

end LogicProgram
