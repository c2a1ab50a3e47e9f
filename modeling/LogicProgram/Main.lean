import LogicProgram.CommandLine.Run

/-!
# The program

Reads the files that the arguments may name, runs the command on them, prints
what it leaves behind, makes the directories that it asked for and writes the
files that it changed. No prover can be started from here.
-/

namespace LogicProgram.Main

open CommandLine

/-- The content of a file, if it can be read. -/
def readFile? (path : String) : IO (Option Text) :=
  try
    return some (← IO.FS.readBinFile path).data.toList
  catch _ => return none

/-- Whether there is a directory: something that can be opened and not read. -/
def isDirectory (path : String) : IO Bool := do
  try
    let _ ← IO.FS.Handle.mk path .read
    return (← readFile? path).isNone
  catch _ => return false

/-- The paths that arguments may name: all of them, and values after equals
signs. -/
def candidates (args : List String) : List String :=
  ".anthem.yaml" :: args.flatMap fun a => [a, String.intercalate "=" (a.splitOn "=").tail]

/-- The part of a path before its last slash. -/
def parent (path : String) : String := String.intercalate "/" (path.splitOn "/").dropLast

/-- The files and directories that arguments may name. -/
def loadDisk (args : List String) : IO Disk := do
  let paths := (candidates args).eraseDups
  let files ← paths.filterMapM fun p => do
    return (← readFile? p).map fun t => (Path.ofText p, t)
  let directories ← (paths ++ paths.map parent).eraseDups.filterM isDirectory
  return ⟨files, directories.map fun (p : String) => Path.ofText p⟩

/-- The place of a path in the file system. -/
def placeOf (p : Path) : String :=
  let names := p.map fun t => (String.fromUTF8? ⟨t.toArray⟩).getD ""
  match names with
  | "/" :: rest => "/" ++ String.intercalate "/" rest
  | _ => String.intercalate "/" names

/-- Makes the directories that were not there and writes the files that differ
from what they were. -/
def saveDisk (before after : Disk) : IO Unit := do
  after.directories.forM fun p => do
    unless before.isDirectory p do IO.FS.createDirAll (placeOf p)
  after.files.forM fun (p, t) => do
    if before.file? p != some t then IO.FS.writeBinFile (placeOf p) ⟨t.toArray⟩

/-- A host without provers. -/
def host (isTerminal : Bool) (now : Nat) : Host Unit :=
  { isTerminal
    isInstalled := fun _ => false
    start := fun _ _ _ => return ⟨-1, [], []⟩
    clock := return now }

end LogicProgram.Main

open LogicProgram LogicProgram.Main

/-- Runs the command that the arguments ask for. -/
def main (args : List String) : IO UInt32 := do
  let stdout ← IO.getStdout
  let stderr ← IO.getStderr
  let disk ← loadDisk args
  let host := host (← stdout.isTty) (← IO.monoNanosNow)
  let (output, world) := CommandLine.run host (args.map Text.ofString) ⟨disk, [], ()⟩
  saveDisk disk world.disk
  stdout.write ⟨output.stdout.toArray⟩
  stdout.flush
  output.errors.forM fun e => stderr.write ⟨e.toArray⟩
  return output.exitCode.toUInt32
