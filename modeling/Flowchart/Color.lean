import Flowchart.Color.Name
import Flowchart.Decimal

/-!
# Colours

A colour is a name, or components in a colour space. A component may be missing; it then counts as
zero.

- Two colours are the same (`==`) if they are the same name, or have the same space, the same
  components missing and equal numbers for the others. A name never equals components.
- `Color.render` writes a colour in CSS syntax, `Color.id` in characters that an identifier may have.
-/

namespace Flowchart

/-- The spaces in which the components of a colour are given. -/
inductive ColorSpace where
  /-- Red, green and blue, in hexadecimal digits or by `rgb()`. -/
  | rgb
  | hsl
  | hwb
  | lab
  | lch
  | oklab
  | oklch
  | srgb
  | srgbLinear
  | displayP3
  | a98Rgb
  | prophotoRgb
  | rec2020
  | xyzD50
  | xyzD65
deriving DecidableEq, Repr

namespace ColorSpace

/-- How a space is written. -/
def name : ColorSpace → String
  | .rgb => "rgb"
  | .hsl => "hsl"
  | .hwb => "hwb"
  | .lab => "lab"
  | .lch => "lch"
  | .oklab => "oklab"
  | .oklch => "oklch"
  | .srgb => "srgb"
  | .srgbLinear => "srgb-linear"
  | .displayP3 => "display-p3"
  | .a98Rgb => "a98-rgb"
  | .prophotoRgb => "prophoto-rgb"
  | .rec2020 => "rec2020"
  | .xyzD50 => "xyz-d50"
  | .xyzD65 => "xyz-d65"

/-- The spaces that are given as the first argument of `color()`. -/
def spaces : List ColorSpace :=
  [.srgb, .srgbLinear, .displayP3, .a98Rgb, .prophotoRgb, .rec2020, .xyzD50, .xyzD65]

end ColorSpace

/-- A colour. -/
inductive Color where
  | named (name : String)
  | mixed (space : ColorSpace) (first second third alpha : Option Float32)
deriving Repr

namespace Color

/-- Both components are missing, or neither is and they are equal. -/
def sameComponent : Option Float32 → Option Float32 → Bool
  | none, none => true
  | some a, some b => a == b
  | _, _ => false

instance : BEq Color where
  beq
    | .named a, .named b => a == b
    | .mixed m a b c d, .mixed n e f g h =>
      m == n && sameComponent a e && sameComponent b f && sameComponent c g && sameComponent d h
    | _, _ => false

/-- The colour of text where nothing else is said. -/
def black : Color := .named "black"

instance : Inhabited Color := ⟨black⟩

/-! ## Mixing -/

/-- One of the three components that a hue in degrees, a saturation and a lightness in per cent
mix; `n` is 0 for red, 8 for green and 4 for blue. -/
def ofHue (hue saturation lightness n : Float32) : Float32 :=
  let light := lightness * 0.01
  let amount := saturation * 0.01 * (if light < 1 - light then light else 1 - light)
  let x := n + hue * (1 / 30)
  let k := x - 12 * (x * (1 / 12)).floor
  let ramp := if k - 3 < 9 - k then k - 3 else 9 - k
  light - amount * (if ramp < -1 then -1 else if 1 < ramp then 1 else ramp)

/-- One of the three components that a hue in degrees, a whiteness and a blackness in per cent mix. -/
def ofWhiteness (hue whiteness blackness n : Float32) : Float32 :=
  let white := whiteness * 0.01
  let dark := blackness * 0.01
  if white + dark < 1 then white + ofHue hue 100 50 n * (1 - white - dark)
  else white / (white + dark)

/-! ## Writing -/

/-- A component times `scale`. -/
def renderComponent (scale : Float32) : Option Float32 → String
  | none => "none"
  | some a => renderNumber (a * scale)

/-- Red, green and blue as numbers up to 255, and alpha where it is less than one. -/
def renderRgb (red green blue alpha : Option Float32) : String :=
  let parts := [red, green, blue].map (renderComponent 255)
  if alpha.getD 0 < 1 then "rgba(" ++ ", ".intercalate (parts ++ [renderComponent 1 alpha]) ++ ")"
  else "rgb(" ++ ", ".intercalate parts ++ ")"

/-- The components after `opening`, and alpha where it is less than one. -/
def renderSpaced (opening : String) (first second third alpha : Option Float32) : String :=
  let parts := [first, second, third].map (renderComponent 1)
  let ending := if alpha.getD 0 < 1 then " / " ++ renderComponent 1 alpha ++ ")" else ")"
  opening ++ " ".intercalate parts ++ ending

/-- A colour in CSS syntax. Hues are written as what they mix. -/
def render : Color → String
  | .named name => name
  | .mixed m a b c alpha =>
    let mix (component : Float32 → Float32 → Float32 → Float32 → Float32) (n : Float32) :=
      some (component (a.getD 0) (b.getD 0) (c.getD 0) n)
    match m with
    | .rgb => renderRgb a b c alpha
    | .hsl => renderRgb (mix ofHue 0) (mix ofHue 8) (mix ofHue 4) alpha
    | .hwb => renderRgb (mix ofWhiteness 0) (mix ofWhiteness 8) (mix ofWhiteness 4) alpha
    | .lab | .lch | .oklab | .oklch => renderSpaced (m.name ++ "(") a b c alpha
    | .srgb | .srgbLinear | .displayP3 | .a98Rgb | .prophotoRgb | .rec2020 | .xyzD50 | .xyzD65 =>
      renderSpaced ("color(" ++ m.name ++ " ") a b c alpha

/-- What stands for a character of a colour's text in its identifier. -/
def idPart (c : Char) : List Char :=
  if c = '#' then "hex".toList
  else if "(), ;.%/".toList.contains c then ['_']
  else [c]

/-- The colour as an identifier. -/
def id (c : Color) : String :=
  let safe := c.render.toList.flatMap idPart
  String.ofList (if safe.head?.any Char.isDigit then "c_".toList ++ safe else safe)

end Color

end Flowchart
