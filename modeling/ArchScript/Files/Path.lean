/-
  Paths: the names between the slashes, and the name and stem of a file.
-/

namespace ArchScript.Path

/-- What stands between the slashes of a path; neighbouring slashes have an empty piece
between them. -/
def pieces : List Char → List (List Char)
  | [] => [[]]
  | c :: cs =>
    if c = '/' then [] :: pieces cs
    else
      match pieces cs with
      | [] => [[c]]
      | p :: ps => (c :: p) :: ps

theorem pieces_ne_nil (cs : List Char) : pieces cs ≠ [] := by
  cases cs with
  | nil => simp [pieces]
  | cons c cs =>
    simp only [pieces]
    split
    · simp
    · split <;> simp

/-- The piece that stands for the directory above. -/
def above : List Char := ['.', '.']

/-- The pieces that stand for no step: the empty one and the single dot. -/
def isHere (piece : List Char) : Bool := piece == [] || piece == ['.']

/-- The name at the end of a path, unless the path ends above a directory. -/
def fileName? (path : String) : Option (List Char) :=
  match ((pieces path.toList).filter fun p => !isHere p).getLast? with
  | some name => if name = above then none else some name
  | none => none

/-- The part of a name before its last dot. -/
def beforeLastDot? : List Char → Option (List Char)
  | [] => none
  | c :: cs =>
    match beforeLastDot? cs with
    | some name => some (c :: name)
    | none => if c = '.' then some [] else none

/-- A name without its extension; a name whose only dot comes first has none. -/
def withoutExtension (name : List Char) : List Char :=
  match beforeLastDot? name with
  | some (c :: cs) => c :: cs
  | _ => name

/-- The name of the file at a path, without its extension. -/
def stem? (path : String) : Option String :=
  (fileName? path).map fun name => String.ofList (withoutExtension name)

end ArchScript.Path
