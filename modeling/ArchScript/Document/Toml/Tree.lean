/-
  The tables of TOML text while it is read.

  Whether a key may still be added to a table depends on how the table came into being, so
  every table remembers it until the text is read. `assign` sets a value at a dotted path,
  `openTable` brings the table of a header into being; both refuse to define a key or a
  table a second time.
-/
import ArchScript.Document
import ArchScript.Table

namespace ArchScript.Toml

open Table (lookup insertEntry)

/-- How a table came into being. A table that a header implied belongs to dotted keys as soon
as one of them leads through it. -/
inductive Origin where
  /-- on the way to the table of a header -/
  | implied
  /-- by a header of its own -/
  | header
  /-- on the way of a dotted key -/
  | dotted
  /-- in braces; nothing can be added to it -/
  | inline
deriving DecidableEq

/-- What a key stands for: a value, or a table with its origin. -/
inductive Node where
  | value (d : Document)
  | table (origin : Origin) (fields : List (String × Node))

/-- The keys of a table with their nodes, in order. -/
abbrev Fields := List (String × Node)

/-- The fields of what stands on the way of a dotted key: of a table that no header of its
own and no braces made, or of one that is still to come. -/
def passable? : Option Node → Option Fields
  | none => some []
  | some (.table .dotted sub) => some sub
  | some (.table .implied sub) => some sub
  | some (.table .header _) => none
  | some (.table .inline _) => none
  | some (.value _) => none

/-- Sets the value at a path of keys; the last key must be new. The tables on the way come
into being where they are missing, and are tables of dotted keys afterwards. -/
def assign (n : Node) : List String → Fields → Option Fields
  | [], _ => none
  | [key], fields => if (lookup key fields).isNone then some (insertEntry key n fields) else none
  | key :: path, fields => do
    let sub ← passable? (lookup key fields)
    return insertEntry key (.table .dotted (← assign n path sub)) fields

/-- Brings the table of a header into being. It must be new, or implied by the headers of
other tables; on the way any table will do that is not in braces. -/
def openTable : List String → Fields → Option Fields
  | [], fields => some fields
  | [key], fields =>
    match lookup key fields with
    | none => some (insertEntry key (.table .header []) fields)
    | some (.table .implied sub) => some (insertEntry key (.table .header sub) fields)
    | some _ => none
  | key :: path, fields =>
    match lookup key fields with
    | none => (openTable path []).map fun sub => insertEntry key (.table .implied sub) fields
    | some (.value _) => none
    | some (.table .inline _) => none
    | some (.table origin sub) =>
      (openTable path sub).map fun sub => insertEntry key (.table origin sub) fields

/-- A dotted key may lead through a table that a header implied. -/
example : ((openTable ["a", "b", "c"] []).bind (assign (.value .null) ["a", "b", "d"])).isSome := by
  decide

/-- From then on that table can have no header of its own. -/
example : (((openTable ["a", "b", "c"] []).bind (assign (.value .null) ["a", "b", "d"])).bind
    (openTable ["a", "b"])).isNone := by
  decide

/-- Changes the fields of the table at a path. -/
def modifyTable (f : Fields → Option Fields) : List String → Fields → Option Fields
  | [], fields => f fields
  | key :: path, fields =>
    match lookup key fields with
    | some (.table origin sub) =>
      (modifyTable f path sub).map fun sub => insertEntry key (.table origin sub) fields
    | _ => none

mutual

/-- The document of a node; how its tables came into being is forgotten. -/
def Node.toDocument : Node → Document
  | .value d => d
  | .table _ fields => .record (toRecord fields)

/-- The documents of the fields of a table. -/
def toRecord : Fields → List (String × Document)
  | [] => []
  | (key, n) :: fields => (key, n.toDocument) :: toRecord fields

end

end ArchScript.Toml
