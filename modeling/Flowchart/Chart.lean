import Flowchart.Block
import Flowchart.Config
import Flowchart.Export
import Flowchart.Repair

/-!
# From source to chart

The steps from a source to the text of a chart, each under a configuration: `parse` reads a program,
`layout` puts it into place, `render` draws it, and `convert` does all three. `write` draws into a
file.
-/

namespace Flowchart.Chart

variable (config : Config)

/-- The program of a source. -/
def parse (source : List Char) : Except Failure Program :=
  (Program.ofSource config.maxDepth source).mapError fun e => .source [e.diagnostic] source

/-- The scene of a program. -/
def layout (p : Program) : Except Failure (Scene Float32) :=
  (Layout.program config.layout p).mapError .layout

/-- The text of a scene as SVG. -/
def render (s : Scene Float32) : Except Failure String := do
  return (← Exporter.ofStyle config.style none).render s

/-- Draws a scene into the file at a path. -/
def write {m : Type → Type} [Monad m] (files : FileAccess m) (s : Scene Float32) (path : String) :
    m (Except Failure Unit) :=
  match Exporter.ofStyle config.style (some path) with
  | .error failure => return .error failure
  | .ok exporter => exporter.save files s

/-- The text of a source's chart. -/
def convert (source : List Char) : Except Failure String := do
  render config (← layout config (← parse config source))

end Flowchart.Chart
