import TriShare.Command.Report
import TriShare.Sharing.Stream
/-!
The program: reads the files that a command needs, works out its outputs, and writes them.
-/

namespace TriShare.Program

/-- The reason for which the system refused a file. -/
def reason : IO.Error → FileError
  | .noFileOrDirectory .. => .notFound
  | .alreadyExists .. => .exists
  | .inappropriateType _ code _ => if code = 21 then .isDirectory else .notDirectory
  | .invalidArgument _ 36 _ => .nameTooLong
  | .invalidArgument _ 40 _ => .tooManyLinks
  | e => .other (toString e)

/-- Reads a text file. -/
def readText (path : String) : IO (Except FileError String) := do
  try
    return Store.textOf (← IO.FS.readBinFile path)
  catch e => return .error (reason e)

/-- Makes a directory in one that is there already. One that is there itself will do. -/
def makeLast (path : String) : IO (Except FileError Unit) := do
  try
    IO.FS.createDir path
    return .ok ()
  catch e =>
    if ← ((← IO.currentDir) / path).isDir then return .ok () else return .error (reason e)

/-- Makes a directory, and those on the way to it, the nearest first, as far as they are missing. -/
def makeDirectory (path : String) : List String → IO (Except FileError Unit)
  | [] => makeLast path
  | parent :: above => do
    match ← makeLast path with
    | .error .notFound =>
      match ← makeDirectory parent above with
      | .ok () => makeLast path
      | .error e => return .error e
    | r => return r

/-- Writes a text file. -/
def writeText (path content : String) : IO (Except FileError Unit) := do
  try
    IO.FS.writeFile path content
    return .ok ()
  catch e => return .error (reason e)

/-- Writes a file after its directory is made. -/
def writeOutput (o : Output) : IO (Except Failure Unit) := do
  if let some directory := o.directory then
    if let .error e ← makeDirectory directory (Path.above directory) then
      return .error (.creating directory e)
  if let .error e ← writeText o.path o.content then
    return .error (.writing o.path e)
  return .ok ()

/-- Writes outputs in turn, up to the first that cannot be written. -/
def writeAll : List Output → IO (Except Failure Unit)
  | [] => return .ok ()
  | o :: rest => do
    match ← writeOutput o with
    | .error e => return .error e
    | .ok () => writeAll rest

/-- Runs a command. -/
def perform (i : Invocation) : IO (Except Failure Unit) := do
  let contents ← i.inputs.mapM fun path => do return (path, ← readText path)
  let seed ← IO.getRandomBytes 32
  let settings : Settings := ⟨4, seededTape seed.toList⟩
  match i.outputs settings fun path => (contents.lookup path).getD (.error .notFound) with
  | .error e => return .error e
  | .ok outputs => writeAll outputs

end TriShare.Program

open TriShare in
def main (args : List String) : IO UInt32 := do
  match Args.parse args with
  | .error .version => IO.println versionLine; return 0
  | .error .help => IO.println usage; return 0
  | .error .misuse => IO.eprintln usage; return 2
  | .ok i =>
    match ← Program.perform i with
    | .ok () => return 0
    | .error e => IO.eprintln e.report; return (Outcome.failure e).code.toUInt32
