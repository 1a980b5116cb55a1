/-
  The steps of a run: from the file of a source to the file of its model.

  The settings are read first, then the source; the output is written last and only if
  everything before it went well. Only one configuration is read: the one that the
  arguments name, else that of the working directory, else that of the user. A later one
  never stands in for one that is there and cannot be read.

  How a configuration is written is no matter of a run: it takes a reader of configurations,
  any one, and asks it about the text of the file (`SettingsReader`).
-/
import ArchScript.CommandLine
import ArchScript.Compile
import ArchScript.Export
import ArchScript.Failure
import ArchScript.Files.Path
import ArchScript.Settings

namespace ArchScript

/-- A reader of configurations: the settings that a text describes, if it describes any. -/
abbrev SettingsReader := String → Option Settings

/-- The exported text of a source, with its model named `name` if there is a name. -/
def Settings.compileToJson (s : Settings) (name : Option String) (source : String) :
    Except Failure String :=
  match compile s.elaboration source with
  | .error diagnostics => .error (.source diagnostics source)
  | .ok model => .ok (((name.map model.withName).getD model).toJson s.pretty)

namespace Run

variable {m : Type → Type} [Monad m] [FileStore m]

/-- Where settings are kept, below the working directory and below that of the user. -/
def settingsPath : String := "scenaria/config.toml"

def present (p : Place) : ExceptT Failure m Bool := ExceptT.lift (FileStore.present p)

def readText (p : Place) : ExceptT Failure m String :=
  ExceptT.mk do return (← FileStore.readText p).mapError .file

def writeText (p : Place) (text : String) : ExceptT Failure m Unit :=
  ExceptT.mk do return (← FileStore.writeText p text).mapError .file

/-- Reads the settings at a place that messages call `name`. -/
def readSettings (reader : SettingsReader) (p : Place) (name : String) :
    ExceptT Failure m Settings := do
  match reader (← readText p) with
  | some settings => return settings
  | none => throw (.settings (.malformed name))

/-- Finds the settings of a run. `user` is what messages call the directory where the user
keeps settings, if there is one. -/
def findSettings (reader : SettingsReader) (user : Option String) :
    Option String → ExceptT Failure m Settings
  | some path => do
    if ← present ⟨.working, path⟩ then readSettings reader ⟨.working, path⟩ path
    else throw (.settings (.missing path))
  | none => do
    if ← present ⟨.working, settingsPath⟩ then
      readSettings reader ⟨.working, settingsPath⟩ settingsPath
    else
      match user with
      | none => return .default
      | some directory =>
        if ← present ⟨.user, settingsPath⟩ then
          readSettings reader ⟨.user, settingsPath⟩ (directory ++ "/" ++ settingsPath)
        else return .default

end Run

/-- Compiles the input of `arguments` and writes its model to their output. -/
def runWith {m : Type → Type} [Monad m] [FileStore m] (reader : SettingsReader)
    (user : Option String) (arguments : Arguments) : ExceptT Failure m Unit := do
  let settings ← Run.findSettings reader user arguments.settings
  let source ← Run.readText ⟨.working, arguments.input⟩
  let text ← settings.compileToJson (Path.stem? arguments.input) source
  Run.writeText ⟨.working, arguments.output⟩ text

end ArchScript
