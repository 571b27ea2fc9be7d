import TriShare.Command.Args
import TriShare.Command.Store
import TriShare.Config.Json
import TriShare.Json.Writer
import TriShare.Padding.Pad
import TriShare.Record.Json
import TriShare.Table.Parallel
/-!
Running a command. What a command writes is worked out from the files that it reads before the
first of its outputs is written, so that a command that fails on its inputs changes nothing.
-/

namespace TriShare

/-- What is read from a path. -/
abbrev Reads := String → Except FileError String

/-- Why a command fails. -/
inductive Failure
  | configUnreadable (path : String) (cause : FileError)
  | library (cause : Error)
  | noStem (path : String)
  | reading (path : String) (cause : FileError)
  | parsing (path : String)
  | profiling (path : String) (cause : Error)
  | creating (path : String) (cause : FileError)
  | writing (path : String) (cause : FileError)
  | panicked (cause : Panic)
  deriving DecidableEq, Repr

/-- The failure and its causes, one a line. -/
def Failure.lines : Failure → List String
  | .configUnreadable path cause => [s!"invalid configuration: {path}: {cause.message}"]
  | .library cause => cause.lines
  | .noStem path => [s!"cannot derive an output name from {path}"]
  | .reading path cause => [s!"reading {path}", cause.message]
  | .parsing path => [s!"parsing {path}"]
  | .profiling path cause => s!"profiling {path}" :: cause.lines
  | .creating path cause => [s!"creating {path}", cause.message]
  | .writing path cause => [s!"writing {path}", cause.message]
  | .panicked cause => [cause.message]

/-- A file to be written, and the directory to be made before that. -/
structure Output where
  directory : Option String
  path : String
  content : String
  deriving DecidableEq, Repr

/-- Reads a document from a file. -/
def readDocument {α : Type} (reads : Reads) (decode? : String → Option α) (path : String) :
    Except Failure α :=
  match reads path with
  | .error .notText => .error (.parsing path)
  | .error e => .error (.reading path e)
  | .ok text =>
    match decode? text with
    | none => .error (.parsing path)
    | some a => .ok a

/-- The schema under which a command runs. -/
def loadSchema (reads : Reads) : Option String → Except Failure Schema
  | none => (Schema.ofConfig Config.default).mapError fun fault => .library (.invalidConfig fault)
  | some path =>
    match reads path with
    | .error e => .error (.configUnreadable path e)
    | .ok text =>
      match Config.parse? text with
      | none => .error (.library (.invalidConfig .notJson))
      | some c => (Schema.ofConfig c).mapError fun fault => .library (.invalidConfig fault)

/-- The file with a party's view of a table. -/
def partyOutput (outDir stem : String) (views : Triple PartyTable) (p : Party) : Output :=
  let directory := Path.join outDir p.name
  ⟨some directory, Path.join directory s!"{stem}_{p.name}.json",
    (PartyTable.toJson (views.get p)).render⟩

/-- The files that sharing a table writes. -/
def shareOutputs (schema : Schema) (reads : Reads) (tapes : Nat → Nat → UInt8) (workers : Nat)
    (input outDir : String) : Except Failure (List Output) :=
  match Path.stem? input with
  | none => .error (.noStem input)
  | some stem =>
    match readDocument reads Table.read? input with
    | .error e => .error e
    | .ok table =>
      match shareTableParallel schema table workers tapes with
      | .error e => .error (.library e)
      | .ok views => .ok (Party.all.map (partyOutput outDir stem views))

/-- Shows tables to a profiler, one after the other. -/
def profileTables (reads : Reads) (p : Profiler) : List String → Except Failure Profiler
  | [] => .ok p
  | path :: rest =>
    match readDocument reads PartyTable.read? path with
    | .error e => .error e
    | .ok table =>
      match p.observeTable table with
      | (.error e, _) => .error (.profiling path e)
      | (.ok (), p) => profileTables reads p rest

/-- The file that profiling tables writes. -/
def profileOutputs (schema : Schema) (reads : Reads) (output : String) (tables : List String) :
    Except Failure (List Output) :=
  match profileTables reads (Profiler.new schema) tables with
  | .error e => .error e
  | .ok p =>
    match p.finish with
    | .error e => .error (.library e)
    | .ok w => .ok [⟨none, output, w.toJson.render⟩]

/-- A row as one text. -/
def rowText (row : List Block) : String := String.join (row.map Block.hex)

/-- The file that padding a table writes. -/
def padOutputs (schema : Schema) (reads : Reads) (widths input output : String) :
    Except Failure (List Output) :=
  match readDocument reads Widths.read? widths with
  | .error e => .error e
  | .ok w =>
    match readDocument reads PartyTable.read? input with
    | .error e => .error e
    | .ok table =>
      match padTable schema w table with
      | .error (.error e) => .error (.library e)
      | .error (.panic cause) => .error (.panicked cause)
      | .ok rows =>
        .ok [⟨none, output, (Json.array (rows.map fun r => .string (rowText r))).render⟩]

/-- How a command is run: how many workers share a table where the command does not say, and the
tape of each chunk. -/
structure Settings where
  workers : Nat
  tapes : Nat → Nat → UInt8

/-- The files that a command writes, or why it fails before it writes any. -/
def Invocation.outputs (i : Invocation) (settings : Settings) (reads : Reads) :
    Except Failure (List Output) :=
  match loadSchema reads i.config with
  | .error e => .error e
  | .ok schema =>
    match i.command with
    | .share input outDir workers =>
      shareOutputs schema reads settings.tapes (workers.getD settings.workers) input outDir
    | .profile output tables => profileOutputs schema reads output tables
    | .pad widths input output => padOutputs schema reads widths input output

/-- The files that a command may read. -/
def Invocation.inputs (i : Invocation) : List String :=
  i.config.toList ++
    match i.command with
    | .share input _ _ => [input]
    | .profile _ tables => tables
    | .pad widths input _ => [widths, input]

/-- Makes the directory of an output, if it has one. -/
def Output.prepare (o : Output) (s : Store) : Except Failure Unit × Store :=
  match o.directory with
  | none => (.ok (), s)
  | some directory => (s.makeDirectory directory).map (Except.mapError (.creating directory)) id

/-- Writes outputs in turn, up to the first that cannot be written. -/
def writeOutputs (s : Store) : List Output → Except Failure Unit × Store
  | [] => (.ok (), s)
  | o :: rest =>
    match o.prepare s with
    | (.error e, s) => (.error e, s)
    | (.ok (), s) =>
      match s.write o.path o.content with
      | .error e => (.error (.writing o.path e), s)
      | .ok s => writeOutputs s rest

/-- Runs a command in a working directory. -/
def Invocation.run (i : Invocation) (settings : Settings) (s : Store) :
    Except Failure Unit × Store :=
  match i.outputs settings s.read with
  | .error e => (.error e, s)
  | .ok outputs => writeOutputs s outputs

/-- How a run of the program ends. -/
inductive Outcome
  | success
  | version
  | help
  | misuse
  | failure (cause : Failure)
  deriving DecidableEq, Repr

/-- The exit code. -/
def Outcome.code : Outcome → Nat
  | .success | .version | .help => 0
  | .failure (.panicked _) => 101
  | .failure _ => 1
  | .misuse => 2

/-- What `--version` prints. -/
def versionLine : String := "shareprep 0.1.0"

/-- The outcome of arguments that name no command to run. -/
def Args.Stop.outcome : Args.Stop → Outcome
  | .version => .version
  | .help => .help
  | .misuse => .misuse

/-- Runs the program in a working directory. -/
def runProgram (settings : Settings) (args : List String) (s : Store) : Outcome × Store :=
  match Args.parse args with
  | .error stop => (stop.outcome, s)
  | .ok i =>
    match i.run settings s with
    | (.ok (), s) => (.success, s)
    | (.error e, s) => (.failure e, s)

end TriShare
