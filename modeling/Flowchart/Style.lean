import Flowchart.Color.Syntax

/-!
# Styles

A style names the colours of a chart as texts, where they are set; a palette holds the colours
themselves. `Style.palette` reads all four and fails with the first that is none, in the order
background, stroke, fill, way back.
-/

namespace Flowchart

/-- The colours that are set for a chart. -/
structure Style where
  /-- What is behind the chart. -/
  background : Option String := none
  /-- Outlines, connectors and text. -/
  stroke : Option String := none
  /-- The inside of shapes. -/
  fill : Option String := none
  /-- The dashed connectors that lead back to a loop's condition. -/
  backEdge : Option String := none
deriving DecidableEq, Repr

/-- The colours that a chart is drawn in. -/
structure Palette where
  background : Color
  stroke : Color
  fill : Color
  backEdge : Color
deriving Repr

namespace Style

/-- The colour of the background, white where none is set. -/
def backgroundColor (s : Style) : Except ColorError Color := Color.parse (s.background.getD "white")

/-- The colour of outlines, a dark grey where none is set. -/
def strokeColor (s : Style) : Except ColorError Color := Color.parse (s.stroke.getD "#555555")

/-- The colour of the inside of shapes, nearly white where none is set. -/
def fillColor (s : Style) : Except ColorError Color := Color.parse (s.fill.getD "#f8f9fa")

/-- The colour of the way back to a loop's condition, a grey where none is set. -/
def backEdgeColor (s : Style) : Except ColorError Color := Color.parse (s.backEdge.getD "#777777")

/-- The colours of the style. -/
def palette (s : Style) : Except ColorError Palette := do
  return {
    background := ← s.backgroundColor
    stroke := ← s.strokeColor
    fill := ← s.fillColor
    backEdge := ← s.backEdgeColor }

end Style

end Flowchart
