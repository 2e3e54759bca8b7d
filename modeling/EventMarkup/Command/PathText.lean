import EventMarkup.Command.Octets
import EventMarkup.Text.Pieces

/-!
# Path texts

What can be said of a path by its octets alone: its names, the path of the directory that it lies
in, the stem of its last name, and the path of a file in the directory that it leads to. Names are
separated by slashes. Empty names do not count, and neither does a single point, except at the
front of a path.
-/

namespace EventMarkup.Command

open Text

def slash : UInt8 := 0x2F

def point : UInt8 := 0x2E

def slashParts (path : Octets) : List Octets := pieces (· == slash) path

def isRooted (path : Octets) : Bool := path.head? == some slash

/-- Whether a part of a path counts as a name behind the first part. -/
def isName (part : Octets) : Bool := part != [] && part != [point]

def pathNames (path : Octets) : List Octets :=
  match slashParts path with
  | [] => []
  | first :: more => (if first = [] then [] else [first]) ++ more.filter isName

def pathOf (rooted : Bool) (names : List Octets) : Octets :=
  (if rooted then [slash] else []) ++ [slash].intercalate names

/-- The paths of the directories around what a path leads to, from the nearest outwards. A path
that does not start at the root ends with the empty path. -/
def parentPaths (path : Octets) : List Octets :=
  let names := pathNames path
  ((List.range names.length).map fun n => pathOf (isRooted path) (names.take n)).reverse

/-- What stands before the last point of a name, if there is a point. -/
def beforeLastPoint? (name : Octets) : Option Octets :=
  match name.reverse.dropWhile (· != point) with
  | [] => none
  | _ :: before => some before.reverse

/-- The name without its last point and what follows it; a name whose only point stands at its
front stays as it is. -/
def nameStem (name : Octets) : Octets :=
  match beforeLastPoint? name with
  | some before => if before.isEmpty then name else before
  | none => name

/-- The stem of the last name of a path, if that is a name proper. -/
def fileStem? (path : Octets) : Option Octets :=
  match (pathNames path).getLast? with
  | none => none
  | some name => if name = [point] ∨ name = [point, point] then none else some (nameStem name)

/-- The path of a file in the directory that a path leads to. -/
def pathIn (directory file : Octets) : Octets :=
  if directory = [] ∨ directory.getLast? = some slash then directory ++ file
  else directory ++ slash :: file

end EventMarkup.Command
