import EventMarkup.Command.Files
import EventMarkup.Command.PathText
import EventMarkup.Command.Request
import EventMarkup.Template

/-!
# Running commands

`check` reads a template and reports its problems. `build` reads a template and writes the code of
its fragments to a file named after it, in a directory that is made if need be. Whatever happens
ends in an `Outcome`: what was said and how the command ended. The files are reached through
`FileAccess` alone.
-/

namespace EventMarkup.Command

structure Outcome where
  /-- The exit code: none for success, one for a failure, two for an unusable command line. -/
  exit : Nat
  /-- What was said. -/
  output : String
  /-- What was said about problems and failures. -/
  errors : String
  deriving DecidableEq, Repr

namespace Outcome

def success (output : String) : Outcome := ⟨0, output, ""⟩

/-- A failure, with what was said before it. -/
def failure (before reason : String) : Outcome := ⟨1, "", before ++ "Error: " ++ reason ++ "\n"⟩

/-- A failure to do something, with its cause. -/
def failureTo (deed cause : String) : Outcome :=
  failure "" ("failed to " ++ deed ++ "\n\nCaused by:\n    " ++ cause)

end Outcome

/-! ## Texts -/

def defaultDirectory : Octets := octetsOf "target/velox-gen"

/-- The name for code whose template has no name, or one that is no text. -/
def defaultStem : String := "component"

/-- The name of the file for the code of a template. -/
def codeFileName (input : Octets) : Octets :=
  octetsOf (((fileStem? input).bind textOf?).getD defaultStem ++ ".handlers.js")

/-- The code of one fragment: its path as a comment, and its entries as an object. -/
def fragmentText (f : Fragment) : String :=
  "// " ++ f.path ++ "\n\x7b" ++ f.code ++ "\x7d\n"

def codeFileText (fragments : List Fragment) : String :=
  String.join (fragments.map fragmentText)

def problemCount (ds : List Diagnostic) : String := toString ds.length ++ " problem(s) found"

def problemList (input : Octets) (ds : List Diagnostic) : String :=
  shown input ++ ":\n" ++ String.join (ds.map fun d => "  " ++ d.message ++ "\n")

/-- The first line of the help, and what is said about an unusable command line. -/
def usage : String := "Usage: velox [OPTIONS] <COMMAND>\n"

def versionText : String := "velox 0.1.1\n"

/-! ## Commands -/

section

variable {m : Type → Type} [Monad m]

/-- Reads and compiles a template, or tells why that is not possible. -/
def compileFile (files : FileAccess m) (input : Octets) : m (Except Outcome Template) := do
  match ← files.read input with
  | .error e => return .error (.failureTo ("read " ++ shown input) e.message)
  | .ok source =>
    match Template.compile source with
    | .error e => return .error (.failureTo ("parse " ++ shown input) e.message)
    | .ok t => return .ok t

def check (files : FileAccess m) (input : Octets) : m Outcome := do
  match ← compileFile files input with
  | .error outcome => return outcome
  | .ok t =>
    if t.diagnostics.isEmpty then
      return .success ("No problems found in " ++ shown input ++ "\n")
    else
      return .failure (problemList input t.diagnostics) (problemCount t.diagnostics)

/-- Makes a directory together with those around it, which are given from the nearest outwards. A
directory that is there already will do. -/
def makeDirectories (files : FileAccess m) : (path : Octets) → (around : List Octets) →
    m (Except FileError Unit)
  | path, around => do
    if path = [] then return .ok ()
    match ← files.makeDirectory path with
    | .ok () => return .ok ()
    | .error .missing =>
      match around with
      | [] => return .error (.other "failed to create whole tree")
      | outer :: more =>
        match ← makeDirectories files outer more with
        | .error e => return .error e
        | .ok () =>
          match ← files.makeDirectory path with
          | .ok () => return .ok ()
          | .error e => if ← files.isDirectory path then return .ok () else return .error e
    | .error e => if ← files.isDirectory path then return .ok () else return .error e

/-- Writes the code for the events of a template. -/
def build (files : FileAccess m) (input : Octets) (directory : Option Octets)
    (denyProblems : Bool) : m Outcome := do
  match ← compileFile files input with
  | .error outcome => return outcome
  | .ok t =>
    if denyProblems && !t.diagnostics.isEmpty then
      return .failure "" (problemCount t.diagnostics ++ " in " ++ shown input)
    let directory := directory.getD defaultDirectory
    match ← makeDirectories files directory (parentPaths directory) with
    | .error e => return .failureTo ("create " ++ shown directory) e.message
    | .ok () =>
      let path := pathIn directory (codeFileName input)
      match ← files.write path (codeFileText t.fragments) with
      | .error e => return .failureTo ("write " ++ shown path) e.message
      | .ok () => return .success ("Generated: " ++ shown path ++ "\n")

def run (files : FileAccess m) (arguments : List String) : m Outcome :=
  match Request.read? arguments with
  | none => return ⟨2, "", usage⟩
  | some .help => return .success usage
  | some .version => return .success versionText
  | some (.check input) => check files input
  | some (.build input directory denyProblems) => build files input directory denyProblems

end

end EventMarkup.Command
