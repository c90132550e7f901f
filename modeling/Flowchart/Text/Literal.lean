import Flowchart.Text

/-!
# Words and quoted literals

Both scanners of the library, the one over source text and the one over a statement, cut words and
literals by the same rule. They differ in what ends an unterminated literal: in source text a line
break does, in a statement nothing does.

- `Literal.scan` reads the rest of a literal after its opening quote: what it takes and what it
  leaves are the text (`scan_append`).
-/

namespace Flowchart

/-- Words are made of ASCII letters, digits and the underscore. -/
def isWordChar (c : Char) : Bool := c.isAlphanum || c == '_'

namespace Literal

/-- The rest of a literal after its opening `quote`, and the text after the literal. A backslash
takes the next character with it. The literal ends after its closing quote, before a character of
`stop`, or at the end of the text; a backslash with nothing to take with it stays outside. -/
def scan (stop : Char → Bool) (quote : Char) : List Char → List Char × List Char
  | [] => ([], [])
  | c :: cs =>
    if c = quote then ([c], cs)
    else if c = '\\' then
      match cs with
      | [] => ([], [c])
      | d :: ds =>
        if stop d then ([], c :: d :: ds)
        else
          let (taken, rest) := scan stop quote ds
          (c :: d :: taken, rest)
    else if stop c then ([], c :: cs)
    else
      let (taken, rest) := scan stop quote cs
      (c :: taken, rest)

variable (stop : Char → Bool) (quote : Char)

theorem scan_append (cs : List Char) : (scan stop quote cs).1 ++ (scan stop quote cs).2 = cs := by
  fun_induction scan stop quote cs <;> simp_all

end Literal

end Flowchart
