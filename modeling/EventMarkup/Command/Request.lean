import EventMarkup.Command.Octets
import EventMarkup.Text.Front
import EventMarkup.Text.Pieces

/-!
# Requests

What the arguments of the command line ask for. A command name stands first, apart from flags, and
its own arguments follow in any order. Flags may be joined behind one hyphen; the value of an
option stands behind an equals sign or as the next argument; and behind `--` nothing is a flag. A
flag or an option may be given once, an empty path does not count, and the first argument that is
out of place makes the whole line unusable, unless help or the version was asked for before it.
-/

namespace EventMarkup.Command

open Text

/-- What a command line asks for. -/
inductive Request where
  /-- Report the problems of a template. -/
  | check (input : Octets)
  /-- Write the code for the events of a template, by default to a fixed directory; on demand only
  if the template has no problems. -/
  | build (input : Octets) (directory : Option Octets) (denyProblems : Bool)
  /-- Tell the version. -/
  | version
  /-- Tell how the program is used. -/
  | help
  deriving DecidableEq, Repr

namespace Request

/-! ## Words -/

/-- The parts of a command line. -/
inductive Word where
  /-- A flag or the name of an option, with its hyphens. -/
  | flag (name : String)
  /-- A name with hyphens, and a value behind an equals sign. -/
  | valued (name value : String)
  /-- Anything else. -/
  | plain (text : String)
  /-- The mark behind which nothing is a flag. -/
  | mark
  deriving DecidableEq, Repr

def wordsOf (argument : String) : List Word :=
  match argument.toList with
  | '-' :: '-' :: name =>
    match cutAt? ['='] name with
    | some (name, value) => [.valued (String.ofList ('-' :: '-' :: name)) (String.ofList value)]
    | none => [.flag argument]
  | '-' :: c :: more => (c :: more).map fun c => .flag (String.ofList ['-', c])
  | _ => [.plain argument]

def words : List String → List Word
  | [] => []
  | argument :: more =>
    if argument = "--" then .mark :: more.map .plain else wordsOf argument ++ words more

/-! ## Arguments of a command -/

/-- The arguments of a command that were given so far. -/
structure Given where
  /-- Whether more output was asked for. -/
  verbose : Bool := false
  /-- The path of the template. -/
  input : Option Octets := none
  /-- The directory for the code. -/
  directory : Option Octets := none
  /-- Whether problems are to be refused. -/
  denyProblems : Bool := false
  deriving DecidableEq, Repr

/-- Takes in the directory for the code, once and not empty. -/
def Given.withDirectory? (g : Given) (path : String) : Option Given :=
  if path = "" ∨ g.directory.isSome then none
  else some { g with directory := some (octetsOf path) }

/-- Takes in the path of the template, once and not empty. -/
def Given.withInput? (g : Given) (path : String) : Option Given :=
  if path = "" ∨ g.input.isSome then none else some { g with input := some (octetsOf path) }

def readCheck : Given → List Word → Option Request
  | g, [] => g.input.map .check
  | g, .mark :: more => readCheck g more
  | g, .plain path :: more => (g.withInput? path).bind (readCheck · more)
  | g, .flag name :: more =>
    if name = "-h" ∨ name = "--help" then some .help
    else if (name = "-v" ∨ name = "--verbose") ∧ !g.verbose then
      readCheck { g with verbose := true } more
    else none
  | _, .valued _ _ :: _ => none

def readBuild : Given → List Word → Option Request
  | g, [] => g.input.map (.build · g.directory g.denyProblems)
  | g, .mark :: more => readBuild g more
  | g, .plain path :: more => (g.withInput? path).bind (readBuild · more)
  | g, .valued name path :: more =>
    if name = "--out-dir" then (g.withDirectory? path).bind (readBuild · more) else none
  | g, .flag "--out-dir" :: .plain path :: more =>
    (g.withDirectory? path).bind (readBuild · more)
  | g, .flag name :: more =>
    if name = "-h" ∨ name = "--help" then some .help
    else if (name = "-v" ∨ name = "--verbose") ∧ !g.verbose then
      readBuild { g with verbose := true } more
    else if name = "--deny-warnings" ∧ !g.denyProblems then
      readBuild { g with denyProblems := true } more
    else none

/-- Reads what help is wanted for: one command at most. -/
def readHelp : List Word → Option Request
  | [] => some .help
  | [.plain name] =>
    if name = "check" ∨ name = "build" ∨ name = "help" then some .help else none
  | _ => none

/-! ## Command lines -/

/-- Reads a command line from its start, where flags may stand before the name of the command. -/
def readFrom (verbose : Bool) : List Word → Option Request
  | [] => none
  | .plain name :: more =>
    if name = "check" then readCheck {} more
    else if name = "build" then readBuild {} more
    else if name = "help" then readHelp more
    else none
  | .flag name :: more =>
    if name = "-h" ∨ name = "--help" then some .help
    else if name = "-V" ∨ name = "--version" then some .version
    else if (name = "-v" ∨ name = "--verbose") ∧ !verbose then readFrom true more
    else none
  | _ :: _ => none

/-- What the arguments of a command line ask for, if they can be used. -/
def read? (arguments : List String) : Option Request := readFrom false (words arguments)

end Request

end EventMarkup.Command
