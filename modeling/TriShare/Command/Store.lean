import Std.Data.TreeMap
import TriShare.Container.Entries
/-!
A tree of directories with a working directory in it, and the paths that lead through the tree. A
path is followed name by name; each name but the last has to lead to a directory, and a symbolic
link leads along the path that it holds. A file can stand at several positions of the tree.
-/

namespace TriShare

/-- Why a file cannot be read or written. -/
inductive FileError
  | notFound
  | exists
  | notDirectory
  | isDirectory
  | nameTooLong
  | tooManyLinks
  /-- The file is no text. -/
  | notText
  /-- Another reason, in the system's words. -/
  | other (description : String)
  deriving DecidableEq, Repr

def FileError.message : FileError → String
  | .notFound => "No such file or directory (os error 2)"
  | .exists => "File exists (os error 17)"
  | .notDirectory => "Not a directory (os error 20)"
  | .isDirectory => "Is a directory (os error 21)"
  | .nameTooLong => "File name too long (os error 36)"
  | .tooManyLinks => "Too many levels of symbolic links (os error 40)"
  | .notText => "stream did not contain valid UTF-8"
  | .other description => description

/-- The names on the way from the root directory to a file or directory. -/
abbrev Position := List String

/-- What stands at a position. -/
inductive Entry
  /-- The file with a number. -/
  | file (number : Nat)
  | directory
  /-- A file that is always empty: what is written to it is lost. -/
  | sink
  /-- A symbolic link, with its path. -/
  | link (target : String)
  deriving DecidableEq, Repr

/-- Files and directories, with a working directory among them. The bytes of the files are kept by
their numbers, so that a file may have several positions. -/
structure Store where
  entries : Std.TreeMap Position Entry
  contents : Array ByteArray
  valid : ∀ (p : Position) (n : Nat), entries[p]? = some (.file n) → n < contents.size

namespace Path

/-- The parts of a path between its slashes. -/
def parts : List Char → List (List Char)
  | [] => [[]]
  | c :: cs =>
    if c = '/' then [] :: parts cs
    else
      match parts cs with
      | [] => [[c]]
      | p :: ps => (c :: p) :: ps

/-- The names in a path. -/
def names (path : String) : List String :=
  (((parts path.toList).filter (· ≠ [])).map String.ofList)

/-- Whether a path leads away from the root of all files. -/
def isAbsolute (path : String) : Bool := path.toList.head? == some '/'

/-- Whether a path can only lead to a directory. -/
def isClosed (path : String) : Bool := path.toList.getLast? == some '/'

/-- The names along which a path leads. A slash at its end stays where it is, in a directory. -/
def steps (path : String) : List String := names path ++ if isClosed path then ["."] else []

/-- Whether a path may lead to a file that is not there yet. -/
def namesFile (path : String) : Bool :=
  !isClosed path &&
    match (names path).getLast? with
    | none | some "." | some ".." => false
    | some _ => true

/-- The path of a name in the directory at a path. -/
def join (path name : String) : String :=
  if isClosed path then path ++ name else path ++ "/" ++ name

/-- The paths of the directories on the way to a path, the nearest first. -/
def above (path : String) : List String :=
  let names := (names path).filter (· ≠ ".")
  let top := if isAbsolute path then "/" else ""
  ((List.range names.length).drop 1).reverse.map fun n => top ++ "/".intercalate (names.take n)

/-- The last name of a path, if it is that of a file or directory. -/
def fileName? (path : String) : Option String :=
  match ((names path).filter (· ≠ ".")).getLast? with
  | some ".." | none => none
  | some name => some name

/-- The characters of a name before its last point; a point at the beginning does not count. -/
def stemOf (name : String) : String :=
  match name.toList.reverse.dropWhile (· ≠ '.') with
  | [] | ['.'] => name
  | _ :: before => String.ofList before.reverse

/-- The last name of a path without its extension. -/
def stem? (path : String) : Option String := (fileName? path).map stemOf

end Path

namespace Store

/-- The working directory. Its own name is not known, so it has one that no path can spell. -/
def home : Position := [""]

/-- What stands at a position. The root directory and the working directory are there always. -/
def find? (s : Store) (p : Position) : Option Entry :=
  if p = [] ∨ p = home then some .directory else s.entries[p]?

/-- The bytes of the file with a number. -/
def content (s : Store) (n : Nat) : ByteArray := s.contents.getD n ByteArray.empty

/-- Puts an entry at a position, whatever is there. -/
def put (s : Store) (p : Position) (e : Entry) (h : ∀ n, e = .file n → n < s.contents.size) :
    Store where
  entries := s.entries.insert p e
  contents := s.contents
  valid q n hq := by
    rw [Std.TreeMap.getElem?_insert] at hq
    split at hq
    · exact h n (Option.some.inj hq)
    · exact s.valid q n hq

/-- Keeps the bytes of one more file, which stands nowhere. -/
def push (s : Store) (bytes : ByteArray) : Store where
  entries := s.entries
  contents := s.contents.push bytes
  valid p n hp := by
    rw [Array.size_push]
    exact Nat.lt_succ_of_lt (s.valid p n hp)

/-- Puts a directory at a position. -/
def addDirectory (s : Store) (p : Position) : Store := s.put p .directory (by simp)

/-- Puts a new file at a position. -/
def create (s : Store) (p : Position) (bytes : ByteArray) : Store :=
  (s.push bytes).put p (.file s.contents.size) (by simp [push])

/-- Changes the bytes of the file with a number. -/
def overwrite (s : Store) (n : Nat) (bytes : ByteArray) : Store where
  entries := s.entries
  contents := s.contents.setIfInBounds n bytes
  valid p m hp := by
    rw [Array.size_setIfInBounds]
    exact s.valid p m hp

/-- How many bytes a name may have. -/
def maxNameSize : Nat := 255

/-- How many bytes a path may have. -/
def maxPathSize : Nat := 4095

/-- The position of a name in the directory at a position. The root directory is its own parent. -/
def along (p : Position) (name : String) : Except FileError Position :=
  if name = "." then .ok p
  else if name = ".." then .ok p.dropLast
  else if maxNameSize < name.utf8ByteSize then .error .nameTooLong
  else .ok (p ++ [name])

/-- The position itself, if a directory stands there. -/
def enter (s : Store) (p : Position) : Except FileError Position :=
  match s.find? p with
  | none => .error .notFound
  | some .directory => .ok p
  | some _ => .error .notDirectory

/-- Goes from a directory along a name. -/
def step (s : Store) (p : Position) (name : String) : Except FileError Position :=
  (s.enter p).bind (along · name)

/-- Where a path begins that is looked up in the directory at a position. -/
def start (p : Position) (path : String) : Position := if Path.isAbsolute path then [] else p

/-- How many links may be on the way to a file. -/
def maxLinks : Nat := 40

/-- Goes along names from a position, with no more links on the way than are given. -/
def follow (s : Store) (links : Nat) (p : Position) (names : List String) :
    Except FileError Position :=
  match names with
  | [] => .ok p
  | name :: rest =>
    match s.step p name with
    | .error e => .error e
    | .ok q =>
      match s.find? q with
      | some (.link target) =>
        match links with
        | 0 => .error .tooManyLinks
        | links + 1 => s.follow links (start p target) (Path.steps target ++ rest)
      | _ => s.follow links q rest
termination_by (links, names.length)

/-- Goes along names of a path. -/
def walk (s : Store) (path : String) (names : List String) : Except FileError Position :=
  if path = "" then .error .notFound
  else if maxPathSize < path.utf8ByteSize then .error .nameTooLong
  else s.follow maxLinks (start home path) names

/-- The text that bytes are. -/
def textOf (bytes : ByteArray) : Except FileError String :=
  match String.fromUTF8? bytes with
  | some text => .ok text
  | none => .error .notText

/-- The content of the file at a path. -/
def read (s : Store) (path : String) : Except FileError String :=
  match s.walk path (Path.steps path) with
  | .error e => .error e
  | .ok p =>
    match s.find? p with
    | none => .error .notFound
    | some .directory => .error .isDirectory
    | some (.file n) => textOf (s.content n)
    | some .sink => .ok ""
    | some (.link _) => .error .tooManyLinks

/-- The position where a path has a file written, in a directory that is there already. A path that
can only lead to a directory is refused before its last name is looked up. -/
def target (s : Store) (path : String) : Except FileError Position :=
  if Path.namesFile path then s.walk path (Path.names path)
  else
    match (s.walk path (Path.names path).dropLast).bind s.enter with
    | .error e => .error e
    | .ok _ => .error .isDirectory

/-- Writes the file at a path. -/
def write (s : Store) (path content : String) : Except FileError Store :=
  match s.target path with
  | .error e => .error e
  | .ok p =>
    match s.find? p with
    | some .directory => .error .isDirectory
    | some .sink => .ok s
    | some (.file n) => .ok (s.overwrite n content.toUTF8)
    | none => .ok (s.create p content.toUTF8)
    | some (.link _) => .error .tooManyLinks

/-- Makes the directories along the names of a path, of which some are done; what is made stays,
also if it cannot go on. While all directories are there already, a name that leads to none ends
the way as it does for the names after it. After one that had to be made, each name is made for
itself, and whatever is in its place is there already, as is a link that leads nowhere. -/
def makeEach (s : Store) (path : String) (done : List String) (made : Bool) :
    List String → Except FileError Unit × Store
  | [] => (.ok (), s)
  | name :: rest =>
    match (s.walk path done).bind (s.step · name) with
    | .error e => (.error e, s)
    | .ok p =>
      match s.find? p with
      | none => makeEach (s.addDirectory p) path (done ++ [name]) true rest
      | some _ =>
        match (s.walk path (done ++ [name])).bind s.enter with
        | .ok _ => makeEach s path (done ++ [name]) made rest
        | .error e => (.error (if made || rest.isEmpty || e == .notFound then .exists else e), s)

/-- Makes the directory at a path with all directories on the way. -/
def makeDirectory (s : Store) (path : String) : Except FileError Unit × Store :=
  match s.walk path [] with
  | .error e => (.error e, s)
  | .ok _ => s.makeEach path [] false (Path.names path)

/-- Puts a file into the working directory, making the directories on the way. -/
def addFile (s : Store) (path content : String) : Store :=
  let names := Path.names path
  (s.makeEach path [] false names.dropLast).2.create (home ++ names) content.toUTF8

/-- The directories that stand in the root directory of any system. -/
def rootNames : List String :=
  ["bin", "boot", "dev", "etc", "home", "lib", "media", "mnt", "opt", "proc", "root", "run", "sbin",
    "srv", "sys", "tmp", "usr", "var"]

/-- A system with an empty working directory. -/
def empty : Store :=
  let bare : Store := ⟨∅, #[], by simp⟩
  (rootNames.foldl (fun (s : Store) name => s.addDirectory [name]) bare).put ["dev", "null"] .sink
    (by simp)

/-- A system with these files in its working directory. -/
def ofFiles (files : List (String × String)) : Store :=
  files.foldl (fun s (path, content) => s.addFile path content) empty

/-- The path of a file from the working directory, if it stands in there. -/
def pathOf? : Position × Entry → Option (String × Unit)
  | (top :: names, .file _) =>
    if [top] = home then some (String.intercalate "/" names, ()) else none
  | _ => none

/-- The paths of all files in the working directory in order. -/
def paths (s : Store) : List String :=
  (Entries.ofList (s.entries.toList.filterMap pathOf?)).map (·.1)

end Store

end TriShare
