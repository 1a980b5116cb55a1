/-
  Stores of files: what a run needs of the files around it.

  A run looks at files in two places: below the directory it works in and below the
  directory where its user keeps settings. `FileStore` names the three things it does with
  a file, for every monad that can do them.
-/

namespace ArchScript

/-- Where a path begins. -/
inductive Base where
  /-- at the directory that the run works in -/
  | working
  /-- at the directory where the user keeps settings -/
  | user
deriving DecidableEq

/-- The place of a file. -/
structure Place where
  base : Base
  path : String
deriving DecidableEq

/-- Why a file cannot be read or written. -/
inductive FileError where
  | notFound
  | notDirectory
  | isDirectory
  /-- a name or the whole path is too long -/
  | nameTooLong
  /-- the path holds the character NUL -/
  | nulInPath
  /-- the bytes of the file are no text -/
  | notText
  | other (reason : String)
deriving DecidableEq

def FileError.message : FileError → String
  | notFound => "No such file or directory (os error 2)"
  | notDirectory => "Not a directory (os error 20)"
  | isDirectory => "Is a directory (os error 21)"
  | nameTooLong => "File name too long (os error 36)"
  | nulInPath => "file name contained an unexpected NUL byte"
  | notText => "stream did not contain valid UTF-8"
  | other reason => reason

/-- What a run does with files. -/
class FileStore (m : Type → Type) where
  /-- whether there is a file or a directory -/
  present : Place → m Bool
  readText : Place → m (Except FileError String)
  /-- writes a file with this content alone; what the file held before is lost -/
  writeText : Place → String → m (Except FileError Unit)

end ArchScript
