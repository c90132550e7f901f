import Flowchart.Color.Syntax
import Flowchart.Diagnostic
import Flowchart.Layout

/-!
# Failures

Everything that can go wrong on the way from a source to a drawn chart, and what is said of it.
-/

namespace Flowchart

/-- Why a file cannot be read or written. -/
inductive FileFault where
  | notFound
  | isDirectory
  | notDirectory
  /-- A name in the path, or the path itself, has too many bytes. -/
  | nameTooLong
  /-- There is a character of code zero in the path. -/
  | nulInName
  /-- What it holds is no text. -/
  | notText
  | other (message : String)
deriving DecidableEq, Repr

/-- What the system says of a file that cannot be read or written. -/
def FileFault.message : FileFault → String
  | .notFound => "No such file or directory (os error 2)"
  | .isDirectory => "Is a directory (os error 21)"
  | .notDirectory => "Not a directory (os error 20)"
  | .nameTooLong => "File name too long (os error 36)"
  | .nulInName => "file name contained an unexpected NUL byte"
  | .notText => "stream did not contain valid UTF-8"
  | .other message => message

/-- Why a scene is not drawn. -/
inductive DrawingFault where
  /-- A colour of the style is none. -/
  | badColor (cause : ColorError)
  /-- It is to be drawn into a file, but there is no path of one. -/
  | noPath
deriving DecidableEq, Repr

def DrawingFault.message : DrawingFault → String
  | .badColor cause => cause.message
  | .noPath => "no output path configured"

/-- Why no chart is made. -/
inductive Failure where
  /-- A file cannot be read. -/
  | unreadable (fault : FileFault)
  /-- The configuration file that is asked for does not exist. -/
  | noConfig (path : String)
  /-- A configuration file holds no configuration. -/
  | badConfig
  /-- The source cannot be read as a program. -/
  | source (diagnostics : List Diagnostic) (text : List Char)
  /-- The flow tree cannot be laid out. -/
  | layout (cause : Layout.TooDeep)
  /-- The scene cannot be drawn, if not for its colours then for want of a path. -/
  | color (cause : DrawingFault)
  /-- The chart cannot be written. -/
  | unwritable (fault : FileFault)
deriving Repr

namespace Failure

/-- What a failure of reading files says without saying that it is one. -/
def cause? : Failure → Option String
  | .unreadable fault => some fault.message
  | .noConfig path => some ("Missing configuration file: " ++ path)
  | .layout cause => some cause.message
  | .badConfig | .source .. | .color _ | .unwritable _ => none

/-- What is said of a failure. -/
def message : Failure → String
  | .unreadable fault => "I/O error: " ++ fault.message
  | .noConfig path => "I/O error: Missing configuration file: " ++ path
  | .badConfig => "I/O error: Failed to parse TOML configuration:"
  | .source diagnostics _ => Diagnostic.renderAll diagnostics
  | .layout cause => "Layout error: " ++ cause.message
  | .color cause => "Export error: Render error: " ++ cause.message
  | .unwritable fault => "Export error: I/O error: " ++ fault.message

end Failure

end Flowchart
