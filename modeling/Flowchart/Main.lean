import Flowchart.Command

/-!
# The program

The command line on the files of the system. Reports go to the standard error stream as far as the log
level lets them through.
-/

namespace Flowchart

/-- What the program says about itself when it is asked for help. -/
def usage : String :=
  "Usage: flowcode [OPTIONS] <INPUT>\n\n" ++
  "Arguments:\n  <INPUT>  Path to the input file\n\n" ++
  "Options:\n" ++
  "  -o, --output <OUTPUT>        Path to the output SVG file [default: out.svg]\n" ++
  "  -c, --config <CONFIG>        Path to configuration file (TOML)\n" ++
  "      --fix                    Apply the proposed source repairs before parsing\n" ++
  "      --log-level <LOG_LEVEL>  Log level (off, error, warn, info, debug, trace) " ++
  "[default: info]\n" ++
  "  -h, --help                   Print help\n" ++
  "  -V, --version                Print version"

/-- What the program calls itself. -/
def version : String := "flowcode 0.1.0"

/-- How many kinds of messages a log level lets through: errors first, warnings second. -/
def verbosity? (level : String) : Option Nat :=
  ["off", "error", "warn", "info", "debug", "trace"].findIdx?
    (· == String.ofList (level.toList.map Char.toLower))

/-- A report as text. -/
def Report.render (r : Report) : String :=
  let help := match r.help with
    | none => []
    | some text => Report.indent "  help: " "        " text
  "\n".intercalate (r.head ++ help)

/-- What the system's refusal of a file means here. The system gives the number of a refusal with
either sign; a path that it cannot even be asked about has a character of code zero. -/
def FileFault.ofError (error : IO.Error) : FileFault :=
  match error with
  | .noFileOrDirectory .. => .notFound
  | .inappropriateType _ number _ =>
    if number = 20 ∨ number = -20 then .notDirectory
    else if number = 21 ∨ number = -21 then .isDirectory
    else .other (toString error)
  | .invalidArgument _ number _ =>
    if number = 36 ∨ number = -36 then .nameTooLong
    else if number = 22 ∨ number = -22 then .nulInName
    else .other (toString error)
  | _ => .other (toString error)

/-- The files of the system. -/
def systemFiles : FileAccess IO where
  isThere path := do
    try
      let _ ← IO.FS.Handle.mk path .read
      return true
    catch error =>
      match FileFault.ofError error with
      | .notFound | .notDirectory | .nameTooLong | .nulInName => return false
      | _ => return true
  read path := do
    try
      match String.fromUTF8? (← IO.FS.readBinFile path) with
      | some text => return .ok text
      | none => return .error .notText
    catch error => return .error (.ofError error)
  write path text := do
    try
      IO.FS.writeFile path text
      return .ok ()
    catch error => return .error (.ofError error)

/-- Where the user has a configuration. -/
def userConfig? : IO (Option String) := do
  let home ← IO.getEnv "HOME"
  let directory := match ← IO.getEnv "XDG_CONFIG_HOME" with
    | some path => if path.startsWith "/" then some path else home.map (· ++ "/.config")
    | none => home.map (· ++ "/.config")
  return directory.map (· ++ "/flowcode/config.toml")

/-- Makes the chart that is asked for and gives the exit code. -/
def perform (args : Arguments) : IO UInt32 := do
  let verbosity ← match verbosity? args.logLevel with
    | some verbosity => pure verbosity
    | none => do
      IO.eprintln ("Invalid log level: " ++ args.logLevel ++ ". Using 'warn' instead.")
      pure 2
  let outcome ← Command.run systemFiles (← userConfig?) args
  if 2 ≤ verbosity then outcome.warnings.forM fun report => IO.eprintln report.render
  match outcome.result with
  | .ok () => return 0
  | .error failure =>
    if 1 ≤ verbosity then (Report.ofFailure failure).forM fun report => IO.eprintln report.render
    return 1

end Flowchart

/-- The program. -/
def main (arguments : List String) : IO UInt32 := do
  match Flowchart.Arguments.parse arguments with
  | .ok args => Flowchart.perform args
  | .error .help => do
    IO.println Flowchart.usage
    return 0
  | .error .version => do
    IO.println Flowchart.version
    return 0
  | .error error => do
    IO.eprintln ("error: " ++ error.message)
    return 2
