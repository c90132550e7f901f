import Flowchart.Color
import Flowchart.Text

/-!
# Reading colours

A colour in CSS syntax is a name, `#` and hexadecimal digits, or a function of components. It is read
from the start of the text; anything left over is an error.

- `Reader` is a reading that takes something off the text or fails.
- Numbers are read and scaled with 64 bits and kept with 32.
-/

namespace Flowchart

/-- Why a text is no colour. -/
inductive ColorFault where
  | hexDigits
  | unknownForm
  | noArguments
  | unknownName
  | unknownComponent
  | unknownAngle
  | unknownUnit
  | noComma
  | noClosing
  | noSpace
  | unknownSpace
  | leftOver
deriving DecidableEq, Repr

/-- What is said of a text that is no colour. -/
def ColorFault.message : ColorFault → String
  | .hexDigits => "wrong number of hex digits"
  | .unknownForm => "unknown color syntax"
  | .noArguments => "expected arguments"
  | .unknownName => "unknown color identifier"
  | .unknownComponent => "unknown color component"
  | .unknownAngle => "unknown angle"
  | .unknownUnit => "unknown angle dimension"
  | .noComma => "expected comma"
  | .noClosing => "expected closing parenthesis"
  | .noSpace => "expected color space identifier"
  | .unknownSpace => "unknown color space"
  | .leftOver => "expected end of string"

/-- A text that is no colour, and why. -/
structure ColorError where
  input : String
  fault : ColorFault
deriving DecidableEq, Repr

/-- The error on one line, with the text as it was given. -/
def ColorError.message (e : ColorError) : String :=
  "invalid color `" ++ e.input ++ "`: " ++ e.fault.message

namespace Color

/-! ## Pieces of the syntax -/

/-- A reading takes something off the front of a text, or fails. -/
abbrev Reader := StateT (List Char) (Except ColorFault)

/-- What is left after the end of a comment, if it ends. -/
def afterComment? : List Char → Option (List Char)
  | [] => none
  | c :: cs => if c = '*' ∧ cs.head? = some '/' then some cs.tail else afterComment? cs

theorem length_afterComment?_le {cs rest : List Char} (h : afterComment? cs = some rest) :
    rest.length ≤ cs.length := by
  fun_induction afterComment? cs with
  | case1 => simp at h
  | case2 c cs _ => simp_all; grind
  | case3 c cs _ ih => exact Nat.le_succ_of_le (ih h)

/-- White space inside a colour. -/
def isSpace (c : Char) : Bool := c == ' ' || c == '\t' || c == '\r' || c == '\n'

/-- The text without the comments at its start and the characters that `drop` is true of. A comment
that does not end is none. -/
def skip (drop : Char → Bool) : List Char → List Char
  | [] => []
  | c :: cs =>
    if drop c then skip drop cs
    else if c = '/' ∧ cs.head? = some '*' then
      match _h : afterComment? cs.tail with
      | some rest => skip drop rest
      | none => c :: cs
    else c :: cs
termination_by cs => cs.length
decreasing_by
  · simp
  · have := length_afterComment?_le ‹_›
    simp only [List.length_tail, List.length_cons] at this ⊢
    omega

/-- Takes white space and comments. -/
def blanks : Reader Unit := modify (skip isSpace)

/-- Takes the character `c` if it comes next. -/
def take? (c : Char) : Reader Bool := do
  match ← get with
  | d :: rest => if c = d then set rest; return true else return false
  | [] => return false

/-- Takes comments and the character `c` if it comes next. The start of a comment is no slash, not even
where the comment does not end. -/
def mark? (c : Char) : Reader Bool := do
  modify (skip fun _ => false)
  if ['/', '*'].isPrefixOf (← get) then return false else take? c

/-- A letter, the underscore or the hyphen. -/
def isNameStart (c : Char) : Bool := c.isAlpha || c == '_' || c == '-'

/-- The longest text that looks like an identifier: a digit is not the first character, nor the
second one after a hyphen. -/
def nameText : List Char → List Char
  | a :: b :: cs =>
    if !isNameStart a then []
    else if isNameStart b || b.isDigit && a != '-' then
      a :: b :: cs.takeWhile fun c => isNameStart c || c.isDigit
    else [a]
  | [a] => if isNameStart a then [a] else []
  | [] => []

/-- Takes an identifier, in lower case. One hyphen alone is none, and neither is what begins with
two. -/
def identifier? : Reader (Option String) := do
  let text ← get
  let name := nameText text
  if name.isEmpty || (name.take 2).all (· == '-') then return none
  set (text.drop name.length)
  return some (String.ofList (name.map Char.toLower))

/-- The digits at the front of a text. -/
def leadingDigits (cs : List Char) : List Char := cs.takeWhile Char.isDigit

/-- The number that decimal digits stand for. -/
def natOfDigits (digits : List Char) : Nat :=
  digits.foldl (fun n d => 10 * n + (d.toNat - '0'.toNat)) 0

/-- The sign at the front of a text, and the text after it. -/
def signOf : List Char → Bool × List Char
  | '+' :: cs => (false, cs)
  | '-' :: cs => (true, cs)
  | cs => (false, cs)

/-- The exponent at the front of a text, and the text after it. -/
def exponentOf (cs : List Char) : Int × List Char :=
  match cs with
  | e :: rest =>
    let (negative, digits) := signOf rest
    let power := leadingDigits digits
    if (e = 'e' ∨ e = 'E') ∧ power ≠ [] then
      let n := natOfDigits power
      (if negative then -n else n, digits.drop power.length)
    else (0, cs)
  | [] => (0, [])

/-- Takes a number: digits, a point with digits after it, an exponent. -/
def number? : Reader (Option Float) := do
  let (negative, text) := signOf (← get)
  let whole := leadingDigits text
  let text := text.drop whole.length
  let places := match text with
    | '.' :: cs => leadingDigits cs
    | _ => []
  let text := if places.isEmpty then text else text.drop (places.length + 1)
  if whole.isEmpty && places.isEmpty then return none
  let (power, text) := exponentOf text
  set text
  let magnitude := Decimal.toFloat ⟨natOfDigits (whole ++ places), power - places.length⟩
  return some (if negative then -magnitude else magnitude)

/-- A value among the arguments of a function. -/
inductive Value where
  | number (n : Float)
  | percentage (n : Float)
  | dimension (n : Float) (unit : String)
  | symbol (name : String)

/-- Takes a value. -/
def value? : Reader (Option Value) := do
  match ← number? with
  | none => return (← identifier?).map .symbol
  | some n =>
    if ← take? '%' then return some (.percentage n)
    match ← identifier? with
    | some unit => return some (.dimension n unit)
    | none => return some (.number n)

/-! ## Components -/

/-- Takes a component: a number times `scale`, a percentage times `percent`, or none at all. -/
def component (scale percent : Float) : Reader (Option Float) := do
  blanks
  match ← value? with
  | some (.number n) => return some (n * scale)
  | some (.percentage n) => return some (n * percent)
  | some (.symbol "none") => return none
  | _ => throw .unknownComponent

/-- Takes an angle in degrees. -/
def angle : Reader (Option Float) := do
  blanks
  match ← value? with
  | some (.number n) => return some n
  | some (.symbol "none") => return none
  | some (.dimension n "deg") => return some n
  | some (.dimension n "rad") => return some (n * (180 / 3.141592653589793))
  | some (.dimension n "grad") => return some (n * 0.9)
  | some (.dimension n "turn") => return some (n * 360)
  | some (.dimension ..) => throw .unknownUnit
  | _ => throw .unknownAngle

/-- The number of `low` up to `high` that is nearest to `n`. -/
def clamp (low high n : Float) : Float :=
  if n < low then low else if high < n then high else n

/-- The number, or zero where it is not positive; a negative zero is not. -/
def atLeastZero (n : Float) : Float := if 0 < n then n else 0

/-- Takes the parenthesis that opens the arguments of a function. -/
def opening : Reader Unit := do
  unless ← take? '(' do throw .noArguments

/-- Takes the comma between two components, where there has to be one. -/
def separator (commas : Bool) : Reader Unit := do
  blanks
  if commas then unless ← mark? ',' do throw .noComma

/-- Takes alpha, after a comma or a slash, and the end of the arguments. -/
def ending (commas : Bool) : Reader (Option Float) := do
  blanks
  let alpha ←
    if ← mark? (if commas then ',' else '/') then
      pure ((← component 1 0.01).map (clamp 0 1))
    else pure (some 1)
  blanks
  unless ← mark? ')' do throw .noClosing
  return alpha

/-- A colour of components with 64 bits. -/
def mix (space : ColorSpace) (a b c alpha : Option Float) : Color :=
  .mixed space (a.map narrow) (b.map narrow) (c.map narrow) (alpha.map narrow)

/-! ## Functions -/

/-- Takes the arguments of `rgb`. -/
def rgbArguments : Reader Color := do
  opening
  let red ← component (1 / 255) 0.01
  blanks
  let commas ← mark? ','
  let green ← component (1 / 255) 0.01
  separator commas
  let blue ← component (1 / 255) 0.01
  let alpha ← ending commas
  return mix .rgb (red.map (clamp 0 1)) (green.map (clamp 0 1)) (blue.map (clamp 0 1)) alpha

/-- Takes the arguments of `hsl`. No white space comes before the first comma. -/
def hslArguments : Reader Color := do
  opening
  let hue ← angle
  let commas ← mark? ','
  let saturation ← component 1 1
  separator commas
  let lightness ← component 1 1
  let alpha ← ending commas
  return mix .hsl hue (saturation.map atLeastZero) lightness alpha

/-- Takes the arguments of `hwb`. -/
def hwbArguments : Reader Color := do
  opening
  let hue ← angle
  let whiteness ← component 1 1
  let blackness ← component 1 1
  let alpha ← ending false
  return mix .hwb hue whiteness blackness alpha

/-- Takes the arguments of `lab` or `oklab`: a lightness up to `white` and two components of which
`percent` is a hundredth of the scale. -/
def labArguments (space : ColorSpace) (white percent : Float) : Reader Color := do
  opening
  let lightness ← component 1 (0.01 * white)
  let a ← component 1 percent
  let b ← component 1 percent
  let alpha ← ending false
  return mix space (lightness.map (clamp 0 white)) a b alpha

/-- Takes the arguments of `lch` or `oklch`: a lightness up to `white`, a chroma of which `percent` is
a hundredth of the scale, and a hue. -/
def lchArguments (space : ColorSpace) (white percent : Float) : Reader Color := do
  opening
  let lightness ← component 1 (0.01 * white)
  let chroma ← component 1 percent
  let hue ← angle
  let alpha ← ending false
  return mix space (lightness.map (clamp 0 white)) (chroma.map atLeastZero) hue alpha

/-- The space with a given name. -/
def spaceNamed? (name : String) : Option ColorSpace :=
  if name = "xyz" then some .xyzD65 else ColorSpace.spaces.find? (·.name == name)

/-- Takes the arguments of `color`: a space and three components. -/
def spaceArguments : Reader Color := do
  opening
  blanks
  match ← identifier? with
  | none => throw .noSpace
  | some name =>
    match spaceNamed? name with
    | none => throw .unknownSpace
    | some space =>
      let a ← component 1 0.01
      let b ← component 1 0.01
      let c ← component 1 0.01
      let alpha ← ending false
      return mix space a b c alpha

/-- Takes what follows an identifier at the start of a colour. -/
def afterIdentifier (name : String) : Reader Color :=
  match name with
  | "rgb" | "rgba" => rgbArguments
  | "hsl" | "hsla" => hslArguments
  | "hwb" => hwbArguments
  | "lab" => labArguments .lab 100 1.25
  | "lch" => lchArguments .lch 100 1.25
  | "oklab" => labArguments .oklab 1 0.004
  | "oklch" => lchArguments .oklch 1 0.004
  | "color" => spaceArguments
  | _ => if isName name then pure (.named name) else throw .unknownName

/-! ## Hexadecimal digits -/

/-- The number that a hexadecimal digit stands for. -/
def hexValue? (c : Char) : Option Nat :=
  if c.isDigit then some (c.toNat - '0'.toNat)
  else if 'a' ≤ c ∧ c ≤ 'f' then some (c.toNat - 'a'.toNat + 10)
  else if 'A' ≤ c ∧ c ≤ 'F' then some (c.toNat - 'A'.toNat + 10)
  else none

/-- A byte as a part of 255. -/
def ofByte (n : Nat) : Option Float32 := some (Float32.ofNat n * (1 / 255))

/-- The colour of hexadecimal digits: one or two for each component, alpha left out or not. -/
def ofHexDigits? : List Nat → Option Color
  | [r, g, b] => some (.mixed .rgb (ofByte (17 * r)) (ofByte (17 * g)) (ofByte (17 * b)) (some 1))
  | [r, g, b, a] =>
    some (.mixed .rgb (ofByte (17 * r)) (ofByte (17 * g)) (ofByte (17 * b)) (ofByte (17 * a)))
  | [r, r', g, g', b, b'] =>
    some (.mixed .rgb (ofByte (16 * r + r')) (ofByte (16 * g + g')) (ofByte (16 * b + b')) (some 1))
  | [r, r', g, g', b, b', a, a'] =>
    some (.mixed .rgb (ofByte (16 * r + r')) (ofByte (16 * g + g')) (ofByte (16 * b + b'))
      (ofByte (16 * a + a')))
  | _ => none

/-- Takes hexadecimal digits, at most eight of them. -/
def hexArguments : Reader Color := do
  let text ← get
  let digits := ((text.takeWhile fun c => (hexValue? c).isSome).take 8).filterMap hexValue?
  match ofHexDigits? digits with
  | none => throw .hexDigits
  | some color =>
    set (text.drop digits.length)
    return color

/-! ## Colours -/

/-- Takes a colour. -/
def reader : Reader Color := do
  if ← take? '#' then hexArguments
  else
    match ← identifier? with
    | none => throw .unknownForm
    | some name => afterIdentifier name

/-- The colour that a text stands for; white space at its ends does not count. -/
def parse (input : String) : Except ColorError Color :=
  match reader.run (Text.trim input.toList) with
  | .error fault => .error ⟨input, fault⟩
  | .ok (color, []) => .ok color
  | .ok (_, _ :: _) => .error ⟨input, .leftOver⟩

end Color

end Flowchart
