import ScriptLoader.CommandLine.Performance
import Std.Time.Format

/-!
# The program

Runs the command line on the real disk. Commands are pure functions of what files contain, so a
command is done on a snapshot of the files it has asked for so far, and done again with more of them
until it asks for nothing that is not there.
-/

namespace ScriptLoader.Main

open CommandLine

def causeOf : IO.Error → IoError
  | .noFileOrDirectory .. => .notFound
  | .alreadyExists .. => .alreadyExists
  | .inappropriateType _ 21 _ => .isDirectory
  | .inappropriateType _ 20 _ => .notDirectory
  | e => .other (toString e)

/-- The result of an action on the disk. -/
def attempt {α : Type} (action : IO α) : IO (Except IoError α) := do
  match ← action.toBaseIO with
  | .ok a => return .ok a
  | .error e => return .error (causeOf e)

def disk : Storage IO where
  ensureDirectory path := attempt (IO.FS.createDirAll (String.ofList path))
  write path bytes :=
    attempt (IO.FS.writeBinFile (String.ofList path) (ByteArray.mk bytes.toArray))

/-- The files that have been read. -/
abbrev Snapshot := Table Path (Except IoError (List UInt8))

def Snapshot.read (snapshot : Snapshot) : Disk := fun path ↦
  (snapshot.get? path).getD (.error .notFound)

/-- Reads files into a snapshot. -/
def Snapshot.extend (snapshot : Snapshot) (paths : List Path) : IO Snapshot :=
  paths.foldlM (fun snapshot path ↦ do
    let contents ← attempt (IO.FS.readBinFile (String.ofList path))
    return snapshot.insert path (contents.map fun bytes ↦ bytes.data.toList)) snapshot

/-- Does what is asked for, with as many files as it takes. -/
partial def perform (invocation : Invocation) (current : Path)
    (environment : Table String String) (snapshot : Snapshot) : IO Ending := do
  match invocation.start { current, environment, disk := snapshot.read } with
  | .inl ending => return ending
  | .inr performance =>
    match performance.reads.filter fun path ↦ (snapshot.get? path).isNone with
    | [] => performance.conclude disk
    | missing => perform invocation current environment (← snapshot.extend missing)

def environmentVariable (name : String) : IO (Option (String × String)) := do
  return (← IO.getEnv name).map ((name, ·))

/-- The time, in UTC and to the microsecond. -/
def timeStamp : IO String := do
  let now := Std.Time.DateTime.ofTimestamp (← Std.Time.Timestamp.now) .UTC
  return now.format "uuuu-MM-dd" ++ "T" ++ now.format "HH:mm:ss.SSSSSS" ++ "Z"

end ScriptLoader.Main

open ScriptLoader ScriptLoader.CommandLine in
def main (arguments : List String) : IO UInt32 := do
  let current := (← IO.currentDir).toString.toList
  let environment := Table.ofList
    ((← [includePathVariable, formatVariable].mapM Main.environmentVariable).filterMap id)
  let ending ← Main.perform (.ofArguments arguments) current environment {}
  (← IO.getStdout).putStr (ending.output (← Main.timeStamp))
  (← IO.getStderr).putStr ending.errors
  return UInt32.ofNat ending.code
