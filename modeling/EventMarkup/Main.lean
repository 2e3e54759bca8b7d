import EventMarkup.Command.Run

/-!
# The program

Runs a command on the files of the machine, and says how it ended.
-/

namespace EventMarkup.Command

/-- Whether a failure has the given number, which some operations negate. -/
def hasNumber (code number : UInt32) : Bool := code == number || code == 0 - number

/-- The reason of a failure on the machine. -/
def FileError.ofMachine : IO.Error → FileError
  | .noFileOrDirectory _ _ _ => .missing
  | .alreadyExists _ _ _ => .exists
  | .inappropriateType _ code details =>
    if hasNumber code 20 then .notDirectory
    else if hasNumber code 21 then .isDirectory
    else .other details
  | .invalidArgument _ code details =>
    if hasNumber code 36 then .nameTooLong else .other details
  | e => .other (toString e)

def caught {α : Type} (action : IO α) : IO (Except FileError α) := do
  try return .ok (← action)
  catch e => return .error (.ofMachine e)

/-- Runs an action on the machine with a path, which has to be a text here. -/
def caughtAt {α : Type} (path : Octets) (action : String → IO α) : IO (Except FileError α) :=
  match textOf? path with
  | some text => caught (action text)
  | none => return .error (.other "the path is no text")

def machine : FileAccess IO where
  read path := do
    match ← caughtAt path fun path => IO.FS.readBinFile path with
    | .error e => return .error e
    | .ok content =>
      match String.fromUTF8? content with
      | some text => return .ok text
      | none => return .error .notText
  write path text := caughtAt path fun path => IO.FS.writeFile path text
  makeDirectory path := caughtAt path fun path => IO.FS.createDir path
  isDirectory path := do
    try return ← (← IO.FS.realPath (shown path)).isDir
    catch _ => return false

end EventMarkup.Command

def main (arguments : List String) : IO UInt32 := do
  let outcome ← EventMarkup.Command.run EventMarkup.Command.machine arguments
  (← IO.getStdout).putStr outcome.output
  (← IO.getStderr).putStr outcome.errors
  return outcome.exit.toUInt32
