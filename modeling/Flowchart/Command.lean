import Flowchart.Arguments
import Flowchart.Chart
import Flowchart.Files
import Flowchart.Report
import Flowchart.Toml

/-!
# The command

`Command.run` makes a chart of a file as a command line asks for it. All reading comes first
(`Command.load`), then `Command.draw` reads the program, lays it out and writes one file at the end.
-/

namespace Flowchart.Command

variable {m : Type → Type} [Monad m] (files : FileAccess m)

/-- Where a project has its configuration. -/
def localConfig : String := "flowcode/config.toml"

/-- Reads a file that is needed. -/
def readFile (path : String) : m (Except Failure String) :=
  return (← files.read path).mapError .unreadable

/-- The configuration that a text holds. -/
def configOfText (text : String) : Except Failure Config :=
  match Toml.parse? text >>= Config.ofSetting? false with
  | none => .error .badConfig
  | some config => .ok config

/-- Reads a configuration file. -/
def readConfig (path : String) : m (Except Failure Config) := do
  if ← files.isThere path then return (← readFile files path) >>= configOfText
  else return .error (.noConfig path)

/-- Reads the first of some configuration files that is there; without one the configuration is the
default. -/
def findConfig : List String → m (Except Failure Config)
  | [] => return .ok {}
  | path :: paths => do if ← files.isThere path then readConfig files path else findConfig paths

/-- Reads the configuration: from the file that is asked for, or else from that of the project or of the
user. -/
def loadConfig (userConfig : Option String) (args : Arguments) : m (Except Failure Config) :=
  match args.config with
  | some path => readConfig files path
  | none => findConfig files (localConfig :: userConfig.toList)

/-- Reads the configuration and then the source. -/
def load (userConfig : Option String) (args : Arguments) : m (Except Failure (Config × String)) := do
  match ← loadConfig files userConfig args with
  | .error failure => return .error failure
  | .ok config => return (← readFile files args.input).map fun source => (config, source)

/-- Makes the chart of a source and writes it to a path. -/
def draw (config : Config) (source : List Char) (path : String) : m (Except Failure Unit) :=
  match Chart.parse config source >>= Chart.layout config with
  | .error failure => return .error failure
  | .ok scene => Chart.write config files scene path

/-- What comes of a command line: the warnings about the source and whether the chart was written. -/
structure Outcome where
  warnings : List Report
  result : Except Failure Unit

/-- Makes a chart as a command line asks for it. If the source is to be mended and there is anything to
mend, the chart is that of the mended source. -/
def run (userConfig : Option String) (args : Arguments) : m Outcome := do
  match ← load files userConfig args with
  | .error failure => return ⟨[], .error failure⟩
  | .ok (config, source) =>
    let source := source.toList
    let analysis := Repair.analyze source
    let warnings := Report.ofDiagnostics source analysis.diagnostics
    let drawn := if args.fix && analysis.hasIssues then analysis.fixed else source
    return ⟨warnings, ← draw files config drawn args.output⟩

end Flowchart.Command
