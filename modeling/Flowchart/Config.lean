import Flowchart.Layout
import Flowchart.Setting
import Flowchart.Style

/-!
# Configuration

What can be set for a chart: how deep blocks may nest, the distances of the layout, and the colours.
Whatever is not set keeps its default. `Config.ofSetting?` reads a configuration from settings in the
sections `parser`, `layout` and `style`; settings with other names do not count, and a value of the
wrong type spoils all. All of them can be lists too, of sections or of values in the order of the fields;
`exact` says that a list does not go on after the last field.
-/

namespace Flowchart

/-- Everything that can be set for a chart. -/
structure Config where
  /-- How deep blocks may nest. -/
  maxDepth : Nat := 64
  layout : Layout.Settings Float32 := .default
  style : Style := {}

instance : Inhabited Config := ⟨{}⟩

namespace Config

open Setting

/-- The section `parser`. -/
def maxDepth? (exact : Bool) (part : Setting) : Option Nat := do
  entryOr count? 64 "max_depth" (← part.record? exact ["max_depth"])

/-- The fields of the section `layout`. -/
def layoutFields : List String :=
  ["origin_x", "origin_y", "node_width", "node_height", "vertical_gap", "horizontal_gap",
    "decision_size", "decision_height", "decision_half_width", "loop_return_offset",
    "loop_exit_offset", "lane_clearance", "max_depth"]

/-- The section `layout`. -/
def layout? (exact : Bool) (part : Setting) : Option (Layout.Settings Float32) := do
  let entries ← part.record? exact layoutFields
  let default : Layout.Settings Float32 := .default
  let number (name : String) (value : Float32) := entryOr number? value name entries
  return {
    originX := ← number "origin_x" default.originX
    originY := ← number "origin_y" default.originY
    nodeWidth := ← number "node_width" default.nodeWidth
    nodeHeight := ← number "node_height" default.nodeHeight
    verticalGap := ← number "vertical_gap" default.verticalGap
    horizontalGap := ← number "horizontal_gap" default.horizontalGap
    decisionSize := ← number "decision_size" default.decisionSize
    decisionHeight := ← number "decision_height" default.decisionHeight
    decisionHalfWidth := ← number "decision_half_width" default.decisionHalfWidth
    loopReturnOffset := ← number "loop_return_offset" default.loopReturnOffset
    loopExitOffset := ← number "loop_exit_offset" default.loopExitOffset
    laneClearance := ← number "lane_clearance" default.laneClearance
    maxDepth := ← entryOr count? default.maxDepth "max_depth" entries }

/-- The fields of the section `style`. -/
def styleFields : List String :=
  ["background_color", "stroke_color", "fill_color", "back_edge_color"]

/-- The section `style`. -/
def style? (exact : Bool) (part : Setting) : Option Style := do
  let entries ← part.record? exact styleFields
  return {
    background := ← entryOr text? none "background_color" entries
    stroke := ← entryOr text? none "stroke_color" entries
    fill := ← entryOr text? none "fill_color" entries
    backEdge := ← entryOr text? none "back_edge_color" entries }

/-- The configuration that settings make. -/
def ofSetting? (exact : Bool) (settings : Setting) : Option Config := do
  let sections ← settings.record? exact ["parser", "layout", "style"]
  return {
    maxDepth := ← entryOr (maxDepth? exact) 64 "parser" sections
    layout := ← entryOr (layout? exact) .default "layout" sections
    style := ← entryOr (style? exact) {} "style" sections }

end Config

end Flowchart
