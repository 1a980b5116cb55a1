/-
  Settings: what a configuration can say, and how it is read from a document.

  A configuration is a record of sections; every section and every field may be left out,
  and what is not known is ignored. A value of the wrong type anywhere refuses the whole
  configuration (`Settings.ofDocument?` is then `none`).
-/
import ArchScript.Document
import ArchScript.Elaboration
import ArchScript.Table

namespace ArchScript

/-- The settings of a run. -/
structure Settings where
  resolveAnnotations : Bool
  redeclaration : Redeclaration
  /-- whether exports are written on many lines -/
  pretty : Bool
deriving DecidableEq

namespace Settings

/-- The settings of an empty configuration. -/
def default : Settings := { resolveAnnotations := true, redeclaration := .replace, pretty := true }

/-- What the settings say about elaboration. -/
def elaboration (s : Settings) : ElaborationOptions :=
  { resolveAnnotations := s.resolveAnnotations, redeclaration := s.redeclaration }

theorem elaboration_default : default.elaboration = .default := rfl

/-! ## Reading -/

/-- The value of a field: the default when it is absent, nothing when it does not fit. -/
def read {α : Type} (fields : List (String × Document)) (name : String)
    (fit : Document → Option α) (absent : α) : Option α :=
  match Table.lookup name fields with
  | some d => fit d
  | none => some absent

def boolean? : Document → Option Bool
  | .boolean b => some b
  | _ => none

/-- A policy is written as its name, or as a record with the name as its only field and a
void value; which values are void depends on the format that the document comes from. -/
def redeclaration? (isVoid : Document → Bool) : Document → Option Redeclaration
  | .text s => Redeclaration.ofText? s
  | .record [(name, value)] => if isVoid value then Redeclaration.ofText? name else none
  | _ => none

/-- The fields of a section. -/
def fields? : Document → Option (List (String × Document))
  | .record fields => some fields
  | _ => none

/-- The settings that a document describes. -/
def ofDocument? (isVoid : Document → Bool) (d : Document) : Option Settings := do
  let sections ← fields? d
  let parser ← read sections "parser" fields? []
  let exporting ← read sections "export" fields? []
  let resolveAnnotations ← read parser "resolve_annotations" boolean? default.resolveAnnotations
  let redeclaration ← read parser "redeclaration" (redeclaration? isVoid) default.redeclaration
  let pretty ← read exporting "pretty" boolean? default.pretty
  return { resolveAnnotations, redeclaration, pretty }

theorem ofDocument?_record_nil (isVoid : Document → Bool) :
    ofDocument? isVoid (.record []) = some default := rfl

end Settings

end ArchScript
