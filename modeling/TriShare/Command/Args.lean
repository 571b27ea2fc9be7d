/-!
The arguments of the command line. Arguments are taken from left to right; the first that asks for
the version or for help, or that cannot be understood, decides. What is missing is looked for only
at the end.
-/

namespace TriShare

/-- What the program is asked to do with files. -/
inductive Command
  | share (input outDir : String) (workers : Option Nat)
  | profile (output : String) (tables : List String)
  | pad (widths input output : String)
  deriving DecidableEq, Repr

/-- A command, and the file with the configuration if one is named. -/
structure Invocation where
  config : Option String
  command : Command
  deriving DecidableEq, Repr

namespace Args

/-- An option that takes a value. -/
inductive Key
  | config
  | input
  | outDir
  | workers
  | output
  | widths
  deriving DecidableEq, Repr

/-- Why there is no invocation. -/
inductive Stop
  | version
  | help
  | misuse
  deriving DecidableEq, Repr

/-- A place in the command line where a certain set of arguments is understood. -/
inductive Level
  | outer
  | share
  | profile
  | pad
  deriving DecidableEq, Repr

/-- The options that are understood, with their long and short names. -/
def Level.options : Level → List (Key × String × Option Char)
  | .outer => [(.config, "config", some 'c')]
  | .share =>
    [(.config, "config", some 'c'), (.input, "input", some 'i'), (.outDir, "out-dir", some 'o'),
      (.workers, "workers", some 'w')]
  | .profile => [(.config, "config", some 'c'), (.output, "output", some 'o')]
  | .pad =>
    [(.config, "config", some 'c'), (.widths, "widths", none), (.input, "input", some 'i'),
      (.output, "output", some 'o')]

/-- The arguments without a value that end the reading. -/
def Level.flags : Level → List (Stop × String × Char)
  | .outer => [(.version, "version", 'V'), (.help, "help", 'h')]
  | _ => [(.help, "help", 'h')]

/-- The name of a command. -/
def level? (name : String) : Option Level :=
  if name = "share" then some .share
  else if name = "profile" then some .profile
  else if name = "pad" then some .pad
  else none

/-- The option with a long name. -/
def Level.long? (l : Level) (name : String) : Option Key :=
  (l.options.find? fun o => o.2.1 == name).map (·.1)

/-- The option with a short name. -/
def Level.short? (l : Level) (name : Char) : Option Key :=
  (l.options.find? fun o => o.2.2 == some name).map (·.1)

/-- The flag with a long name. -/
def Level.longFlag? (l : Level) (name : String) : Option Stop :=
  (l.flags.find? fun f => f.2.1 == name).map (·.1)

/-- The flag with a short name. -/
def Level.shortFlag? (l : Level) (name : Char) : Option Stop :=
  (l.flags.find? fun f => f.2.2 == name).map (·.1)

/-- What has been given at one level. -/
structure Given where
  values : List (Key × String)
  tables : List String

def Given.value? (g : Given) (k : Key) : Option String := g.values.lookup k

/-- A count of at least one, with an optional plus sign. -/
def count? (text : String) : Option Nat :=
  let digits := match text.toList with
    | '+' :: cs => cs
    | cs => cs
  if digits.isEmpty || !digits.all Char.isDigit then none
  else
    let n := digits.foldl (fun n c => 10 * n + (c.toNat - 48)) 0
    if 1 ≤ n ∧ n < UInt64.size then some n else none

/-- Whether a value can be given for an option: a count, or a path that is not empty. -/
def accepts (k : Key) (value : String) : Bool :=
  if k = .workers then (count? value).isSome else !value.isEmpty

/-- Gives a value for an option, which must not have one yet. -/
def Given.set (g : Given) (k : Key) (value : String) : Except Stop Given :=
  if (g.value? k).isSome || !accepts k value then .error .misuse
  else .ok { g with values := (k, value) :: g.values }

/-- Adds a table, which only one command takes. -/
def Given.addTable (l : Level) (g : Given) (path : String) : Except Stop Given :=
  if l = .profile && !path.isEmpty then .ok { g with tables := g.tables ++ [path] }
  else .error .misuse

/-- How a single argument is understood. -/
inductive Reading
  /-- All that follows are tables. -/
  | separator
  | stop (s : Stop)
  | option (k : Key) (value : Option String)
  | plain

/-- The characters before the first equals sign and, if there is one, those after it. -/
def cutEquals : List Char → List Char × Option (List Char)
  | [] => ([], none)
  | c :: cs =>
    if c = '=' then ([], some cs)
    else
      let (name, value) := cutEquals cs
      (c :: name, value)

/-- An argument after two hyphens. -/
def readLong (l : Level) (cs : List Char) : Reading :=
  let (name, value) := cutEquals cs
  let name := String.ofList name
  match l.long? name, l.longFlag? name, value with
  | some k, _, value => .option k (value.map String.ofList)
  | none, some s, none => .stop s
  | _, _, _ => .stop .misuse

/-- An argument after one hyphen, the value of an option following its letter or an equals sign. -/
def readShort (l : Level) (c : Char) (cs : List Char) : Reading :=
  match l.short? c, l.shortFlag? c with
  | some k, _ =>
    match cs with
    | [] => .option k none
    | '=' :: cs => .option k (some (String.ofList cs))
    | cs => .option k (some (String.ofList cs))
  | none, some s => .stop s
  | none, none => .stop .misuse

/-- Reads a single argument. A single hyphen is a plain argument. -/
def read (l : Level) (arg : String) : Reading :=
  match arg.toList with
  | ['-', '-'] => .separator
  | '-' :: '-' :: cs => readLong l cs
  | '-' :: c :: cs => readShort l c cs
  | _ => .plain

/-- Whether an argument can be the value of the option before it. -/
def isValue (arg : String) : Bool :=
  match arg.toList with
  | '-' :: _ :: _ => false
  | _ => true

/-- Takes the arguments of one level. At the outer level they end with the name of a command, which
is given back with the arguments after it. -/
def collect (l : Level) (g : Given) :
    List String → Except Stop (Given × Option (String × List String))
  | [] => .ok (g, none)
  | arg :: rest =>
    if l = .outer && ((level? arg).isSome || arg == "help") then .ok (g, some (arg, rest))
    else
      match read l arg with
      | .separator => (rest.foldlM (Given.addTable l) g).map fun g => (g, none)
      | .stop s => .error s
      | .option k (some value) =>
        match g.set k value with
        | .error s => .error s
        | .ok g => collect l g rest
      | .option k none =>
        match rest with
        | [] => .error .misuse
        | value :: rest =>
          if isValue value then
            match g.set k value with
            | .error s => .error s
            | .ok g => collect l g rest
          else .error .misuse
      | .plain =>
        match g.addTable l arg with
        | .error s => .error s
        | .ok g => collect l g rest

/-- The command of a level, if nothing that it needs is missing. -/
def command? (l : Level) (g : Given) : Option Command :=
  match l with
  | .outer => none
  | .share =>
    match g.value? .input, g.value? .outDir with
    | some input, some outDir => some (.share input outDir ((g.value? .workers).bind count?))
    | _, _ => none
  | .profile =>
    match g.value? .output, g.tables with
    | some output, table :: tables => some (.profile output (table :: tables))
    | _, _ => none
  | .pad =>
    match g.value? .widths, g.value? .input, g.value? .output with
    | some widths, some input, some output => some (.pad widths input output)
    | _, _, _ => none

/-- The arguments of the word `help`: at most the name of one command. -/
def stopAtHelp : List String → Stop
  | [] => .help
  | [name] => if (level? name).isSome || name == "help" then .help else .misuse
  | _ => .misuse

/-- Reads a command line. The configuration named after the command goes before the one named in
front of it. -/
def parse (args : List String) : Except Stop Invocation :=
  match collect .outer ⟨[], []⟩ args with
  | .error s => .error s
  | .ok (_, none) => .error .misuse
  | .ok (outer, some (name, rest)) =>
    match level? name with
    | none => .error (stopAtHelp rest)
    | some l =>
      match collect l ⟨[], []⟩ rest with
      | .error s => .error s
      | .ok (inner, _) =>
        match command? l inner with
        | none => .error .misuse
        | some command => .ok ⟨inner.value? .config <|> outer.value? .config, command⟩

end Args

end TriShare
