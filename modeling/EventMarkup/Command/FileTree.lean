import EventMarkup.Command.Files
import EventMarkup.Command.PathText

/-!
# File trees

A file tree holds directories, the names of files, the contents of files, and the directory that
relative paths start from. A file may have several names, in one directory or in many; whoever
writes to it by one of them changes what is found by the others. There are no links to directories.
`FileTree.access` gives the operations of `FileAccess` on a tree; one that fails leaves the tree as
it is.
-/

namespace EventMarkup.Command

/-- The names on the way from the root to a file or a directory. -/
abbrev Location := List Octets

/-- What stands at a location. -/
inductive Entry where
  /-- A file, by its number. -/
  | file (number : Nat)
  | directory
  deriving DecidableEq

/-- Directories and files, and the directory that relative paths start from. -/
structure FileTree where
  /-- The directories besides the root. -/
  directories : List Location
  /-- The names of files, each with the number of its file. -/
  names : List (Location × Nat)
  /-- The contents of the files, in the order of their numbers. -/
  contents : List ByteArray
  /-- The directory that relative paths start from. -/
  here : Location

def maxNameBytes : Nat := 255

def maxPathBytes : Nat := 4095

namespace FileTree

/-! ## Looking -/

/-- What stands at a location, if anything does. -/
def entry? (t : FileTree) (l : Location) : Option Entry :=
  if l = [] ∨ l ∈ t.directories then some .directory
  else (t.names.lookup l).map .file

/-- Follows the parts of a path from a location, each of them through a directory. -/
def follow (t : FileTree) : Location → List Octets → Except FileError Location
  | l, [] => .ok l
  | l, part :: more =>
    match t.entry? l with
    | none => .error .missing
    | some (.file _) => .error .notDirectory
    | some .directory =>
      if part = [] ∨ part = [point] then t.follow l more
      else if part = [point, point] then t.follow l.dropLast more
      else if maxNameBytes < part.length then .error .nameTooLong
      else t.follow (l ++ [part]) more

/-- Where a path starts. -/
def start (t : FileTree) (path : Octets) : Location := if isRooted path then [] else t.here

/-- Why the octets of a path lead nowhere, whatever the tree. -/
def pathError? (path : Octets) : Option FileError :=
  if 0 ∈ path then some .zeroByte
  else if maxPathBytes < path.length then some .nameTooLong
  else if path = [] then some .missing
  else none

/-- The location that a path leads to, whether or not anything stands there. -/
def locate (t : FileTree) (path : Octets) : Except FileError Location :=
  match pathError? path with
  | some e => .error e
  | none => t.follow (t.start path) (slashParts path)

def read (t : FileTree) (path : Octets) : Except FileError String :=
  match t.locate path with
  | .error e => .error e
  | .ok l =>
    match t.entry? l with
    | none => .error .missing
    | some .directory => .error .isDirectory
    | some (.file number) =>
      match t.contents[number]? with
      | none => .error .missing
      | some content =>
        match String.fromUTF8? content with
        | some text => .ok text
        | none => .error .notText

def isDirectory (t : FileTree) (path : Octets) : Bool :=
  match t.locate path with
  | .error _ => false
  | .ok l => t.entry? l == some .directory

/-! ## Changing -/

/-- The tree with a new file at a location. -/
def newFile (t : FileTree) (l : Location) (content : ByteArray) : FileTree :=
  { t with names := t.names ++ [(l, t.contents.length)], contents := t.contents ++ [content] }

/-- The tree with a text as the content of the file that a path leads to, which is made if need
be. -/
def write (t : FileTree) (path : Octets) (text : String) : Except FileError FileTree :=
  match t.locate path with
  | .error e => .error e
  | .ok l =>
    match t.entry? l with
    | some .directory => .error .isDirectory
    | some (.file number) => .ok { t with contents := t.contents.set number text.toUTF8 }
    | none => .ok (t.newFile l text.toUTF8)

/-- The parts of a path without the empty ones at its end. -/
def trimmedParts (path : Octets) : List Octets :=
  ((slashParts path).reverse.dropWhile (· == [])).reverse

/-- The tree with a new directory where a path leads. The way to it must be there, and it cannot be
a place that is there by its name already. -/
def makeDirectory (t : FileTree) (path : Octets) : Except FileError FileTree :=
  match pathError? path with
  | some e => .error e
  | none =>
    match (trimmedParts path).getLast? with
    | none => .error .exists
    | some name =>
      match t.follow (t.start path) ((trimmedParts path).dropLast ++ [[point]]) with
      | .error e => .error e
      | .ok outer =>
        if name = [point] ∨ name = [point, point] then .error .exists
        else if maxNameBytes < name.length then .error .nameTooLong
        else if (t.entry? (outer ++ [name])).isSome then .error .exists
        else .ok { t with directories := t.directories ++ [outer ++ [name]] }

/-! ## Access -/

/-- Runs an operation that gives a new tree, and keeps the old one where it fails. -/
def update (change : FileTree → Except FileError FileTree) :
    StateM FileTree (Except FileError Unit) :=
  fun t =>
    match change t with
    | .ok t' => (.ok (), t')
    | .error e => (.error e, t)

/-- The operations on a tree. -/
def access : FileAccess (StateM FileTree) where
  read path := fun t => (t.read path, t)
  write path text := update (·.write path text)
  makeDirectory path := update (·.makeDirectory path)
  isDirectory path := fun t => (t.isDirectory path, t)

/-! ## Building trees -/

/-- The locations above a location, without the root. -/
def above (l : Location) : List Location :=
  ((List.range l.length).map l.take).filter (!·.isEmpty)

/-- The tree with a directory and all directories above it. -/
def withDirectory (t : FileTree) (l : Location) : FileTree :=
  (above l ++ [l]).foldl
    (fun t d => if d ∈ t.directories then t else { t with directories := t.directories ++ [d] }) t

/-- The tree with a file and all directories above it. -/
def withFile (t : FileTree) (l : Location) (content : ByteArray) : FileTree :=
  ((above l).foldl withDirectory t).newFile l content

/-- The tree that holds only the directory that relative paths start from. -/
def startingAt (here : Location) : FileTree :=
  withDirectory { directories := [], names := [], contents := [], here } here

/-- The names of files with what is found there. -/
def files (t : FileTree) : List (Location × ByteArray) :=
  t.names.filterMap fun (l, number) => (t.contents[number]?).map fun content => (l, content)

end FileTree

end EventMarkup.Command
