/-
  A run of the program, whose configurations are TOML.
-/
import ArchScript.Document.Toml
import ArchScript.Run.Steps

namespace ArchScript

/-- The settings that a TOML text describes; in TOML the void value is the empty table. -/
def Settings.ofToml? : SettingsReader := fun text =>
  (Toml.parse? text).bind (ofDocument? Document.isEmptyRecord)

/-- A run that reads its configurations as TOML. -/
def run {m : Type → Type} [Monad m] [FileStore m] (user : Option String) (arguments : Arguments) :
    ExceptT Failure m Unit := runWith Settings.ofToml? user arguments

end ArchScript
