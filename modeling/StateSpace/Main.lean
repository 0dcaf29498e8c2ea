import StateSpace.CommandLine.Run
import StateSpace.Storage.Basic

/-!
# The program

Reads the input file, carries out the actions of the run, and tells how long it took.
-/

namespace StateSpace.CommandLine

/-- The content of a file, if it can be read. -/
def readFile? (path : String) : IO (Option String) := do
  try
    return some (← IO.FS.readFile path)
  catch _ =>
    return none

def createFolder (p : Path) : IO (Option Obstacle) := do
  try
    IO.FS.createDir p.text
    return none
  catch
    | .noFileOrDirectory .. => return some .missing
    | e => return some (.other (toString e))

/-- Whether a path leads to a folder. Only a folder has a place under a single dot, and that place
is always taken. -/
def isFolder (p : Path) : IO Bool := do
  try
    IO.FS.createDir (p.text ++ "/.")
    return true
  catch
    | .alreadyExists .. => return true
    | _ => return false

/-- Makes a folder and those on the way to it. -/
def createFolders (folder : String) : IO Unit := do
  let storage : Storage IO := { create := createFolder, isFolder }
  match Path.ofText folder with
  | .error obstacle => throw (IO.userError obstacle.message)
  | .ok p =>
    if let some obstacle ← storage.ensureAll p then throw (IO.userError obstacle.message)

def Action.perform : Action → IO Unit
  | .print line => IO.println line
  | .save folder path content => do
    createFolders folder
    IO.FS.writeFile path content

/-- A number of milliseconds as seconds with three places. -/
def seconds (ms : Nat) : String :=
  let places := toString (ms % 1000)
  s!"{ms / 1000}." ++ String.join (List.replicate (3 - places.length) "0") ++ places

/-- Carries out a run and returns its exit code. -/
def Run.perform (r : Run) (started : Nat) : IO UInt32 := do
  try
    r.actions.forM Action.perform
  catch e =>
    IO.eprintln s!"Error: {e}"
    return 1
  match r.exit with
  | .success =>
    let elapsed := (← IO.monoMsNow) - started
    IO.println s!"All done in {seconds elapsed} s"
  | .failure message => IO.eprintln s!"Error: {message}"
  | .usage message => IO.eprintln s!"error: {message}"
  | .refused => IO.eprintln "Bits should be in the range 0..=31"
  return r.exit.code.toUInt32

end StateSpace.CommandLine

open StateSpace.CommandLine in
def main (args : List String) : IO UInt32 := do
  let started ← IO.monoMsNow
  let run? ← match parse args with
    | .ok (.run o) => pure (runOptions o (← readFile? o.input))
    | _ => pure (run args fun _ => none)
  match run? with
  | some r => r.perform started
  -- not reached: what has no result goes on forever
  | none => return 0
