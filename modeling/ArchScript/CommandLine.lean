/-
  The command line: one input file and a few options.

  An option takes its value from the same argument (`--output=x`, `-ox`, `-o=x`) or from
  the next one. The arguments are read from left to right. An option that waits for its
  value or has just got it is settled when the next option begins; only then is it known
  to lack its value or to be given twice. After `--` every argument is an input.
-/

namespace ArchScript

/-- The arguments of a run. -/
structure Arguments where
  input : String
  output : String
  /-- the configuration to use, and no other -/
  settings : Option String
  logLevel : String
deriving DecidableEq

/-- Why the arguments are not those of a run. -/
inductive ArgumentFault where
  | missingInput
  | helpRequested
  | versionRequested
  | unknownArgument
  | missingValue
  /-- an option is given twice -/
  | repeatedOption
  /-- a value is given to an option that takes none -/
  | needlessValue
deriving DecidableEq

/-- One line for a fault. -/
def ArgumentFault.message : ArgumentFault → String
  | missingInput => "the input file is missing"
  | helpRequested => "help was asked for"
  | versionRequested => "the version was asked for"
  | unknownArgument => "an argument is unknown"
  | missingValue => "an option has no value"
  | repeatedOption => "an option is given twice"
  | needlessValue => "an option takes no value"

namespace CommandLine

def version : String := "archscript 0.1.0"

def usage : String :=
  "Usage: archscript [OPTIONS] <INPUT>\n\n" ++
  "Options:\n" ++
  "  -o, --output <OUTPUT>        the file of the model [default: model.json]\n" ++
  "  -c, --config <CONFIG>        the configuration file\n" ++
  "      --log-level <LOG_LEVEL>  how much is logged [default: info]\n" ++
  "  -h, --help                   shows this text\n" ++
  "  -V, --version                shows the version"

/-! ## Options -/

/-- The options that take a value. -/
inductive ValueOption where
  | output
  | settings
  | logLevel
deriving DecidableEq

/-- What an option name stands for. -/
inductive OptionName where
  | value (o : ValueOption)
  | help
  | version
deriving DecidableEq

/-- The option with a long name. -/
def long? (name : List Char) : Option OptionName :=
  match String.ofList name with
  | "output" => some (.value .output)
  | "config" => some (.value .settings)
  | "log-level" => some (.value .logLevel)
  | "help" => some .help
  | "version" => some .version
  | _ => none

/-- The option with a name of one letter. -/
def short? : Char → Option OptionName
  | 'o' => some (.value .output)
  | 'c' => some (.value .settings)
  | 'h' => some .help
  | 'V' => some .version
  | _ => none

/-! ## Reading -/

/-- What has been read so far. -/
structure Reading where
  input : Option String
  output : Option String
  settings : Option String
  logLevel : Option String
  /-- the option that began last, with its value if that was a further argument -/
  pending : Option (ValueOption × Option String)
  /-- whether `--` was read -/
  isTrailing : Bool

namespace Reading

def start : Reading :=
  { input := none, output := none, settings := none, logLevel := none, pending := none,
    isTrailing := false }

def value? (r : Reading) : ValueOption → Option String
  | .output => r.output
  | .settings => r.settings
  | .logLevel => r.logLevel

/-- Gives an option its value, which it must not have yet. -/
def give (r : Reading) (o : ValueOption) (value : String) : Except ArgumentFault Reading :=
  match r.value? o with
  | some _ => .error .repeatedOption
  | none =>
    match o with
    | .output => .ok { r with output := some value }
    | .settings => .ok { r with settings := some value }
    | .logLevel => .ok { r with logLevel := some value }

/-- Settles the option that began last. -/
def settle (r : Reading) : Except ArgumentFault Reading :=
  match r.pending with
  | none => .ok r
  | some (_, none) => .error .missingValue
  | some (o, some value) => { r with pending := none }.give o value

/-- Reads an option; `attached` is the value in the same argument. -/
def option (r : Reading) (name : OptionName) (attached : Option String) :
    Except ArgumentFault Reading :=
  match name, attached with
  | .value o, some value => do (← r.settle).give o value
  | .value o, none => do return { ← r.settle with pending := some (o, none) }
  | .help, _ => do
    let _ ← r.settle
    .error .helpRequested
  | .version, _ => do
    let _ ← r.settle
    .error .versionRequested

/-- Reads an argument after two dashes: a name, or a name and a value. -/
def longOption (r : Reading) (text : List Char) : Except ArgumentFault Reading :=
  match long? (text.takeWhile (· != '=')), text.dropWhile (· != '=') with
  | none, _ => .error .unknownArgument
  | some name, [] => r.option name none
  | some (.value o), _ :: value => r.option (.value o) (some (String.ofList value))
  | some _, _ :: _ => .error .needlessValue

/-- Reads an argument after one dash: a letter, and a value after it. -/
def shortOption (r : Reading) (letter : Char) (text : List Char) : Except ArgumentFault Reading :=
  match short? letter, text with
  | none, _ => .error .unknownArgument
  | some name, [] => r.option name none
  | some name, '=' :: value => r.option name (some (String.ofList value))
  | some name, value => r.option name (some (String.ofList value))

/-- Reads an argument that is the value of the option before it, or the input. -/
def plain (r : Reading) (argument : String) : Except ArgumentFault Reading :=
  match r.pending, r.isTrailing with
  | some (o, none), false => .ok { r with pending := some (o, some argument) }
  | _, _ =>
    match r.input with
    | some _ => .error .unknownArgument
    | none => do return { ← r.settle with input := some argument }

/-- Reads one argument. -/
def argument (r : Reading) (text : String) : Except ArgumentFault Reading :=
  if r.isTrailing then r.plain text
  else
    match text.toList with
    | ['-', '-'] => .ok { r with isTrailing := true }
    | '-' :: '-' :: name => r.longOption name
    | '-' :: letter :: rest => r.shortOption letter rest
    | _ => r.plain text

/-- Ends the reading; what was not given has its default. -/
def finish (r : Reading) : Except ArgumentFault Arguments := do
  let r ← r.settle
  match r.input with
  | none => .error .missingInput
  | some input =>
    return { input
             output := r.output.getD "model.json"
             settings := r.settings
             logLevel := r.logLevel.getD "info" }

end Reading

/-- The arguments that a command line gives, without the name of the program. -/
def parse (arguments : List String) : Except ArgumentFault Arguments := do
  (← arguments.foldlM Reading.argument .start).finish

end CommandLine

end ArchScript
