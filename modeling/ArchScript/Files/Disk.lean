/-
  Disks: the directories and files of a computer as a value.

  A disk is a store of files for the monad of computations that change a disk. A file can
  be reached by many paths, but it has one location, and a disk holds one entry for it.
-/
import ArchScript.Files.Path
import ArchScript.Files.Store
import ArchScript.Table
import ArchScript.Text.Bytes

namespace ArchScript

/-- One place on a disk: names to follow, from the directory that lies `levels` above a
base. Without a base they begin at the root, which nothing lies above. -/
structure Location where
  base : Option Base
  levels : Nat
  names : List String
deriving DecidableEq

namespace Location

def ofBase (base : Base) : Location := { base := some base, levels := 0, names := [] }

/-- The directory that every other lies in. -/
def root : Location := { base := none, levels := 0, names := [] }

/-- The location of a name in the directory at `l`. -/
def child (l : Location) (name : String) : Location := { l with names := l.names ++ [name] }

/-- The directory that holds `l`; the root holds itself. -/
def parent (l : Location) : Location :=
  match l.names, l.base with
  | [], none => l
  | [], some _ => { l with levels := l.levels + 1 }
  | _ :: _, _ => { l with names := l.names.dropLast }

end Location

/-- What stands at a location. -/
inductive Entry where
  | directory
  | file (content : ByteArray)

/-- The entries of all locations, except the root and the directories that a base lies in. -/
structure Disk where
  entries : Table Location Entry

namespace Disk

def empty : Disk := { entries := .empty }

/-- What stands at a location. The root, a base and what a base lies in are directories. -/
def entryAt? (d : Disk) (l : Location) : Option Entry :=
  if l.names = [] then some .directory else d.entries.get? l

/-! ## Paths -/

/-- The most bytes of a name. -/
def longestName : Nat := 255

/-- The most bytes of a path. -/
def longestPath : Nat := 4095

/-- Refuses what cannot be a path, whatever there is on the disk. -/
def checkPath (path : List Char) : Except FileError Unit :=
  if '\x00' ∈ path then .error .nulInPath
  else if longestPath < Text.byteLength path then .error .nameTooLong
  else .ok ()

/-- Follows the pieces of a path from a location. Only a directory leads on. -/
def follow (d : Disk) (l : Location) : List (List Char) → Except FileError Location
  | [] => .ok l
  | p :: ps =>
    match d.entryAt? l with
    | none => .error .notFound
    | some (.file _) => .error .notDirectory
    | some .directory =>
      if Path.isHere p then d.follow l ps
      else if p = Path.above then d.follow l.parent ps
      else if longestName < Text.byteLength p then .error .nameTooLong
      else d.follow (l.child (String.ofList p)) ps

/-- The location that a path leads to, from the root or from a base. Nothing lies at the empty
path. -/
def locate (d : Disk) (base : Base) (path : List Char) : Except FileError Location := do
  checkPath path
  match path with
  | [] => .error .notFound
  | '/' :: _ => d.follow .root (Path.pieces path)
  | _ => d.follow (.ofBase base) (Path.pieces path)

/-! ## Use -/

/-- Whether a path leads to a directory or a file. -/
def present (d : Disk) (p : Place) : Bool :=
  match d.locate p.base p.path.toList with
  | .ok l => (d.entryAt? l).isSome
  | .error _ => false

/-- The text of a file. -/
def readText (d : Disk) (p : Place) : Except FileError String := do
  let l ← d.locate p.base p.path.toList
  match d.entryAt? l with
  | none => .error .notFound
  | some .directory => .error .isDirectory
  | some (.file content) =>
    match String.fromUTF8? content with
    | some text => .ok text
    | none => .error .notText

/-- A path without the slashes at its end, except one that it begins with. -/
def withoutLastSlashes : List Char → List Char
  | [] => []
  | c :: cs => c :: (cs.reverse.dropWhile (· == '/')).reverse

/-- The location that a file at a path is written to. A path with a slash at its end names a
directory, whether there is one or not. -/
def target (d : Disk) (p : Place) : Except FileError Location := do
  let path := p.path.toList
  checkPath path
  let l ← d.locate p.base (withoutLastSlashes path)
  match d.entryAt? l with
  | some .directory => .error .isDirectory
  | _ => if path.getLast? = some '/' then .error .isDirectory else .ok l

/-- Puts a file at a location. -/
def put (d : Disk) (l : Location) (content : ByteArray) : Disk :=
  { entries := d.entries.insert l (.file content) }

theorem entryAt?_put {l : Location} (h : l.names ≠ []) (d : Disk) (content : ByteArray)
    (k : Location) :
    (d.put l content).entryAt? k = if l = k then some (.file content) else d.entryAt? k := by
  by_cases hk : k.names = []
  · have hl : l ≠ k := fun e => h (e ▸ hk)
    simp [entryAt?, hk, hl]
  · simp [entryAt?, hk, put, Table.get?_insert]

/-- The disk after a file was written. -/
def writeText (d : Disk) (p : Place) (text : String) : Except FileError Disk :=
  (d.target p).map fun l => d.put l text.toUTF8

/-- A step on a disk that may fail; a failed step leaves the disk as it was. -/
def attempt (step : Disk → Except FileError Disk) : StateM Disk (Except FileError Unit) := fun d =>
  match step d with
  | .ok d' => (.ok (), d')
  | .error e => (.error e, d)

instance : FileStore (StateM Disk) where
  present p := fun d => (d.present p, d)
  readText p := fun d => (d.readText p, d)
  writeText p text := attempt fun d => d.writeText p text

/-! ## Building -/

/-- Makes a directory and what it lies in, as far as they are missing. -/
def makeDirectory (d : Disk) (l : Location) : Disk :=
  (List.range l.names.length).foldl
    (fun d n =>
      let outer := { l with names := l.names.take (n + 1) }
      { entries := d.entries.insertIfNew outer .directory })
    d

/-- Adds a file and the directories that it lies in. -/
def addFile (d : Disk) (l : Location) (content : ByteArray) : Disk :=
  (d.makeDirectory l.parent).put l content

end Disk

end ArchScript
