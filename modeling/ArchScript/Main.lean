/-
  The program: a run on the files of the machine.
-/
import ArchScript.Report
import ArchScript.Run

namespace ArchScript

/-- Actions on the files of the machine that know the directory where the user keeps
settings. -/
abbrev Machine := ReaderT String IO

namespace Machine

/-- The path of a place from the directory that the program was started in. -/
def pathOf (p : Place) : Machine String := do
  match p.base with
  | .working => return p.path
  | .user => return (← read) ++ "/" ++ p.path

def isPresent (path : String) : IO Bool := do
  try (← IO.FS.realPath path).pathExists
  catch _ => return false

def isDirectory (path : String) : IO Bool := do
  try (← IO.FS.realPath path).isDir
  catch _ => return false

/-- The cause of a failed action on a path. -/
def cause (path : String) (e : IO.Error) : IO FileError := do
  if ← isDirectory path then return .isDirectory
  match e with
  | .noFileOrDirectory _ _ _ => return .notFound
  | _ => return .other (toString e)

instance : FileStore Machine where
  present p := do isPresent (← pathOf p)
  readText p := do
    let path ← pathOf p
    try
      match String.fromUTF8? (← IO.FS.readBinFile path) with
      | some text => return .ok text
      | none => return .error .notText
    catch e => return .error (← cause path e)
  writeText p text := do
    let path ← pathOf p
    try
      IO.FS.writeFile path text
      return .ok ()
    catch e => return .error (← cause path e)

end Machine

/-- The directory where the user keeps settings, if the environment names one. -/
def userDirectory? : IO (Option String) := do
  match ← IO.getEnv "XDG_CONFIG_HOME" with
  | some directory => return some directory
  | none => return (← IO.getEnv "HOME").map fun home => home ++ "/.config"

/-- Runs with the given arguments and shows what went wrong. The answer is the exit code. -/
def runMachine (arguments : Arguments) : IO UInt32 := do
  let user ← userDirectory?
  let outcome ← (run (m := Machine) user arguments).run.run (user.getD "")
  match outcome with
  | .ok () => return 0
  | .error failure =>
    for report in failure.reports do
      IO.eprintln report.render
    return 1

end ArchScript

open ArchScript in
/-- Reads the command line and runs. Wrong arguments end with exit code 2. -/
def main (arguments : List String) : IO UInt32 := do
  match CommandLine.parse arguments with
  | .ok arguments => runMachine arguments
  | .error .helpRequested =>
    IO.println CommandLine.usage
    return 0
  | .error .versionRequested =>
    IO.println CommandLine.version
    return 0
  | .error fault =>
    IO.eprintln ("error: " ++ fault.message)
    IO.eprintln CommandLine.usage
    return 2
