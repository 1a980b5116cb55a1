/-
  Reports: what a user is shown of a failure.

  A source that does not compile has a report for every diagnostic, with labels into the
  source; every other failure has one report.
-/
import ArchScript.Failure

namespace ArchScript

/-- One thing that a user is shown. -/
structure Report where
  message : String
  code : Option String
  help : Option String
  labels : List Label
  /-- the source that the labels point into -/
  source : Option String
deriving DecidableEq

namespace Report

/-- The report of a diagnostic of `source`. -/
def ofDiagnostic (source : String) (d : Diagnostic) : Report where
  message := d.message
  code := d.code.map ErrorCode.text
  help := d.help
  labels := d.labels
  source := some source

/-- A report without a source. -/
def plain (message code : String) (help : Option String) : Report :=
  { message, code := some code, help, labels := [], source := none }

/-- One line for a report, and one more for its help. -/
def render (r : Report) : String :=
  let head :=
    match r.code with
    | some code => "error[" ++ code ++ "]: " ++ r.message
    | none => "error: " ++ r.message
  match r.help with
  | some help => head ++ "\n  help: " ++ help
  | none => head

end Report

/-- The reports of a failure, in the order in which they are shown. -/
def Failure.reports (f : Failure) : List Report :=
  match f with
  | .source diagnostics text => diagnostics.map (.ofDiagnostic text)
  | .file _ =>
    [.plain f.message "scenaria::io"
      (some "check that the input file exists and the output path is writable")]
  | .settings _ =>
    [.plain f.message "scenaria::config"
      (some ("known keys are `parser.resolve_annotations`, `parser.redeclaration` " ++
        "and `export.pretty`"))]
  | .exporting _ => [.plain f.message "scenaria::export" none]

theorem Failure.length_reports_source (diagnostics : List Diagnostic) (text : String) :
    (Failure.source diagnostics text).reports.length = diagnostics.length := by
  simp [reports]

end ArchScript
