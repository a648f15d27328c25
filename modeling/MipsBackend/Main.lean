import MipsBackend.CommandLine

/-!
The program on the command line.
-/

open MipsBackend in
/-- The text of the file, or of standard input; nothing if it is unreadable or no UTF-8. -/
def readSource (file : Option String) : IO (Option String) := do
  try
    match file with
    | some path => return some (← IO.FS.readFile path)
    | none => return String.fromUTF8? (← (← IO.getStdin).readBinToEnd)
  catch _ => return none

open MipsBackend in
def main (args : List String) : IO UInt32 := do
  match Invocation.ofArgs? args with
  | none => return usageExit
  | some invocation =>
    match invocation.respond (← readSource invocation.file) with
    | .fail => return failureExit
    | .print text =>
      IO.print text
      return 0
    | .write path text =>
      try
        IO.FS.writeFile path text
        return 0
      catch _ => return failureExit
