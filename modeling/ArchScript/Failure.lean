/-
  Failures: why a source could not be turned into the file of its model.
-/
import ArchScript.Diagnostic
import ArchScript.Files.Store

namespace ArchScript

/-- What is wrong with a configuration; paths are given as messages show them. -/
inductive SettingsFault where
  | missing (path : String)
  | malformed (path : String)
  | other (reason : String)
deriving DecidableEq

def SettingsFault.message : SettingsFault → String
  | missing path => "Missing configuration file: " ++ path
  | malformed path => "Failed to parse TOML configuration in " ++ path
  | other reason => reason

/-- Why there is no output. -/
inductive Failure where
  /-- a file could not be read or written -/
  | file (cause : FileError)
  | settings (cause : SettingsFault)
  /-- the source does not compile -/
  | source (diagnostics : List Diagnostic) (text : String)
  /-- the model could not be written as text -/
  | exporting (reason : String)

namespace Failure

/-- One line for a failure; diagnostics speak for themselves. -/
def message : Failure → String
  | file cause => "I/O error: " ++ cause.message
  | settings cause => "Configuration error: " ++ cause.message
  | source diagnostics _ => Diagnostic.renderAll diagnostics
  | exporting reason => "Export error: " ++ reason

end Failure

end ArchScript
