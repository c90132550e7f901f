import Flowchart.Files
import Flowchart.Svg

/-!
# Exporting scenes

An exporter draws scenes in the colours of a style. `Exporter.render` gives the text of a scene;
`Exporter.save` writes it to the file of the exporter, if it has one.
-/

namespace Flowchart

/-- What draws scenes: its colours and, if it writes a file, the path of that. -/
structure Exporter where
  palette : Palette
  path : Option String
deriving Repr

namespace Exporter

/-- The exporter of a style, if all its colours are colours. -/
def ofStyle (style : Style) (path : Option String) : Except Failure Exporter :=
  match style.palette with
  | .error cause => .error (.color (.badColor cause))
  | .ok palette => .ok { palette, path }

variable (exporter : Exporter)

/-- The text of a scene. -/
def render (s : Scene Float32) : String := (Svg.document exporter.palette s).render

/-- Writes the text of a scene to the exporter's file. -/
def save {m : Type → Type} [Monad m] (files : FileAccess m) (s : Scene Float32) :
    m (Except Failure Unit) := do
  match exporter.path with
  | none => return .error (.color .noPath)
  | some path => return (← files.write path (exporter.render s)).mapError .unwritable

end Exporter

end Flowchart
