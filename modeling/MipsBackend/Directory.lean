import MipsBackend.CommandLine
import Std.Data.ExtTreeMap

/-!
Runs of the command line inside a directory of plain files, described by what they read and write.
Of what lies outside the directory, a run sees only the devices that stand for its own streams and
the one that is always empty.
-/

namespace MipsBackend

/-- The texts of the files in a directory, by name. -/
abbrev Directory := Std.ExtTreeMap String String

/-! ## Paths -/

def pathParts : List Char → List (List Char)
  | [] => [[]]
  | '/' :: rest => [] :: pathParts rest
  | c :: rest =>
    match pathParts rest with
    | [] => [[c]]
    | part :: later => (c :: part) :: later

/-- Drops the parts that stay where they are, but for the last, which names what is looked for. -/
def dropHere : List (List Char) → List (List Char)
  | [] => []
  | [last] => [last]
  | part :: rest => if part = [] ∨ part = ['.'] then dropHere rest else part :: dropHere rest

def pathLimit : Nat := 4095

/-- The longest name of a file, in bytes. -/
def nameLimit : Nat := 255

inductive Place where
  | file (name : String)
  /-- A device that reads as an empty file, and forgets what is written to it. -/
  | null
  | input
  | output
  | errors
deriving DecidableEq, Repr

namespace Place

def ofDeviceName? : String → Option Place
  | "null" => some null
  | "stdin" => some input
  | "stdout" => some output
  | "stderr" => some errors
  | _ => none

/-- The file of a name that is not the name of a directory. -/
def ofFileName? (name : String) : Option Place :=
  if name = "" ∨ name = "." ∨ name = ".." ∨ nameLimit < name.utf8ByteSize then none
  else some (file name)

/-- What a path names. There are no directories inside the directory. -/
def ofPath? (path : String) : Option Place :=
  if pathLimit < path.utf8ByteSize then none
  else
    match path.toList with
    | '/' :: rest =>
      match dropHere (pathParts rest) with
      | [['d', 'e', 'v'], name] => ofDeviceName? (.ofList name)
      | _ => none
    | chars =>
      match dropHere (pathParts chars) with
      | [name] => ofFileName? (.ofList name)
      | _ => none

end Place

/-! ## Runs -/

structure Outcome where
  exitCode : UInt32
  printed : String
  directory : Directory

namespace Directory

/-- The text at a path, for a run with some standard input. -/
def read? (directory : Directory) (stdin path : String) : Option String :=
  match Place.ofPath? path with
  | some (.file name) => directory[name]?
  | some .null => some ""
  | some .input => some stdin
  | some .output | some .errors | none => none

/-- The end of a run that prints nothing and leaves the directory as it was. -/
def unchanged (directory : Directory) (exitCode : UInt32) : Outcome :=
  { exitCode, printed := "", directory }

/-- The end of a run that writes a text to a path. -/
def write (directory : Directory) (path text : String) : Outcome :=
  match Place.ofPath? path with
  | some (.file name) => { exitCode := 0, printed := "", directory := directory.insert name text }
  | some .output => { exitCode := 0, printed := text, directory }
  | some .null | some .input | some .errors => directory.unchanged 0
  | none => directory.unchanged failureExit

def run (directory : Directory) (args : List String) (stdin : String) : Outcome :=
  match Invocation.ofArgs? args with
  | none => directory.unchanged usageExit
  | some invocation =>
    let text :=
      match invocation.file with
      | none => some stdin
      | some path => directory.read? stdin path
    match invocation.respond text with
    | .fail => directory.unchanged failureExit
    | .print text => { exitCode := 0, printed := text, directory }
    | .write path text => directory.write path text

end Directory

end MipsBackend
