import Flowchart.Drawing
import Flowchart.Markup
import Flowchart.Style

/-!
# Charts as SVG

A scene in the colours of a palette becomes an SVG document. Edges are drawn first, then boxes, then
the labels of edges, so that a label stays readable where it meets a shape.

- `Svg.document` is the document of a scene.
- Every edge ends in an arrow head of its own colour: a marker, which the document defines once for
  each colour of edges.
-/

namespace Flowchart.Svg

variable (p : Palette)

/-! ## Attributes -/

/-- An attribute that is a number. -/
def number (name : String) (a : Float32) : String × String := (name, renderNumber a)

/-- An attribute that is a colour. -/
def color (name : String) (c : Color) : String × String := (name, c.render)

/-- Two numbers with something in between. -/
def pair (separator : String) (q : Point Float32) : String :=
  renderNumber q.x ++ separator ++ renderNumber q.y

/-! ## Boxes -/

/-- The attributes of an outline. -/
def outline : List (String × String) :=
  [color "fill" p.fill, color "stroke" p.stroke, ("stroke-width", "2")]

/-- An outline in the colours of the palette. -/
def shape : Shape Float32 → Markup
  | .rectangle b radius =>
    .element "rect" ([number "x" b.minX, number "y" b.minY, number "width" b.width,
      number "height" b.height, number "rx" radius] ++ outline p) []
  | .polygon corners =>
    .element "polygon" (("points", " ".intercalate (corners.map (pair ","))) :: outline p) []

/-- The width of one character of a label. -/
def charWidth : Float32 := 7

/-- The distance between two lines of a label. -/
def lineHeight : Float32 := 16

/-- How many characters fit into a width, at least one. -/
def charsIn (width : Float32) : Nat := max 1 (Scalar.wholes (width / charWidth))

/-- One line of a box's label, with its middle at a point. -/
def labelLine (x y : Float32) (line : List Char) : Markup :=
  .element "text" [number "x" x, number "y" y, ("text-anchor", "middle"),
    ("dominant-baseline", "middle"), ("font-family", "Segoe UI, Helvetica, Arial, sans-serif"),
    ("font-size", "13"), color "fill" p.stroke] [.text (String.ofList line)]

/-- The lines of a box's label, around the centre of the box. -/
def labelLines (b : Box Float32) : List Markup :=
  let lines := wrap (charsIn b.labelWidth) b.label.toList
  let top := b.center.y - (Float32.ofNat lines.length - 1) * lineHeight / 2
  lines.mapIdx fun i line => labelLine p b.center.x (top + Float32.ofNat i * lineHeight) line

/-- A box with its label. -/
def box (b : Box Float32) : Markup :=
  .element "g" [("class", "node node-" ++ b.kind.name)] (shape p b.shape :: labelLines p b)

/-! ## Edges -/

/-- The colour of an edge. -/
def edgeColor (e : Edge Float32) : Color := if e.dashed then p.backEdge else p.stroke

/-- The name of the arrow head of a colour. -/
def markerId (c : Color) : String := "arrowhead-" ++ c.id

/-- The line of an edge: to its first point, then from point to point. -/
def pathData (e : Edge Float32) : String :=
  " L ".intercalate (e.points.map (pair " "))

/-- The line of an edge, with an arrow head at its end. -/
def path (e : Edge Float32) : Markup :=
  let stroke := edgeColor p e
  .element "path" ([("d", "M " ++ pathData e), ("class", "edge"), ("fill", "none"),
    color "stroke" stroke, ("stroke-width", "2"), ("marker-end", "url(#" ++ markerId stroke ++ ")")] ++
    if e.dashed then [("stroke-dasharray", "5,5")] else []) []

/-- The width of an edge's label. -/
def labelWidth (label : String) : Float32 := Float32.ofNat label.length * charWidth

/-- Where an edge's label begins: below the start of a line that begins downwards or upwards, beside
the start of one that begins to a side. -/
def labelAnchor (e : Edge Float32) (label : String) : Point Float32 :=
  let start := e.source
  let next := (e.points[1]?).getD e.target
  if start.isAligned next then ⟨start.x + 5, start.y + 20⟩
  else if start.x ≤ next.x then ⟨start.x + 15, start.y + 2⟩
  else ⟨start.x - 15 - labelWidth label, start.y + 2⟩

/-- An edge's label, on the colour of the background. -/
def edgeLabel (e : Edge Float32) (label : String) : Markup :=
  let anchor := labelAnchor e label
  .element "g" [("class", "edge-label")]
    [.element "rect" [number "x" (anchor.x - 2), number "y" (anchor.y - lineHeight + 6),
        number "width" (labelWidth label), number "height" lineHeight,
        color "fill" p.background, ("opacity", "0.8")] [],
      .element "text" [number "x" anchor.x, number "y" anchor.y, ("font-size", "11"),
        ("font-weight", "bold"), ("fill", "#444")] [.text label]]

/-- The colours that edges have, each of them once. -/
def edgeColors : List Color :=
  if p.backEdge == p.stroke then [p.stroke] else [p.stroke, p.backEdge]

/-- The arrow head of a colour. -/
def marker (c : Color) : Markup :=
  .element "marker" [("id", markerId c), ("markerWidth", "10"), ("markerHeight", "7"),
      ("refX", "9"), ("refY", "3.5"), ("orient", "auto")]
    [.element "polygon" [("points", "0 0, 10 3.5, 0 7"), color "fill" c] []]

/-! ## Documents -/

/-- The content of a scene, moved so that its canvas begins at the origin. -/
def content (s : Scene Float32) : Markup :=
  let labels := s.edges.filterMap fun e => e.label.map (edgeLabel p e)
  .element "g" [("transform", "translate(" ++ pair ", " s.offset ++ ")")]
    (s.edges.map (path p) ++ s.boxes.map (box p) ++ labels)

/-- The document of a scene. -/
def document (s : Scene Float32) : Markup :=
  let width := s.canvas.width
  let height := s.canvas.height
  let size := [number "width" width, number "height" height]
  .element "svg"
    ([("xmlns", "http://www.w3.org/2000/svg"), ("viewBox", "0 0 " ++ pair " " ⟨width, height⟩)] ++
      size)
    [.element "rect" ([("x", "0"), ("y", "0"), color "fill" p.background] ++ size) [],
      .element "defs" [] ((edgeColors p).map marker),
      content p s]

end Flowchart.Svg
