import EventMarkup.Command.Octets

/-!
# Files

What a command may do with files, and how it can fail. `FileAccess` lists the operations without
saying on what they work, so that a command can be run on a file tree of its own as well as on the
files of a machine.
-/

namespace EventMarkup.Command

/-- Why an operation on files failed. -/
inductive FileError where
  /-- Nothing is there. -/
  | missing
  /-- Something is there already. -/
  | exists
  /-- The way leads through something that is no directory. -/
  | notDirectory
  /-- A directory is there. -/
  | isDirectory
  /-- A name or a path is too long. -/
  | nameTooLong
  /-- The content of the file is no text. -/
  | notText
  /-- A path has a byte that ends it too early. -/
  | zeroByte
  /-- Any other reason, in words. -/
  | other (reason : String)
  deriving DecidableEq, Repr

def FileError.message : FileError → String
  | .missing => "No such file or directory (os error 2)"
  | .exists => "File exists (os error 17)"
  | .notDirectory => "Not a directory (os error 20)"
  | .isDirectory => "Is a directory (os error 21)"
  | .nameTooLong => "File name too long (os error 36)"
  | .notText => "stream did not contain valid UTF-8"
  | .zeroByte => "file name contained an unexpected NUL byte"
  | .other reason => reason

/-- The operations on files that a command needs. -/
structure FileAccess (m : Type → Type) where
  /-- Reads the text of a file. -/
  read : Octets → m (Except FileError String)
  /-- Writes a text as the whole content of a file. -/
  write : Octets → String → m (Except FileError Unit)
  /-- Makes one directory. -/
  makeDirectory : Octets → m (Except FileError Unit)
  /-- Whether a path leads to a directory. -/
  isDirectory : Octets → m Bool

end EventMarkup.Command
