/-!
# Markup

Elements with attributes and children, and how they are written: attributes in the order of their
names, every child on lines of its own, and an element without children in one tag.
-/

namespace Flowchart

/-- A piece of markup. -/
inductive Markup where
  | element (name : String) (attributes : List (String × String)) (children : List Markup)
  | text (content : String)
deriving Repr

namespace Markup

/-- What stands for a character of a text. -/
def escapeChar : Char → List Char
  | '&' => "&amp;".toList
  | '<' => "&lt;".toList
  | '>' => "&gt;".toList
  | c => [c]

/-- What stands for a character of an attribute's value. -/
def escapeQuoted : Char → List Char
  | '"' => "&quot;".toList
  | '\'' => "&apos;".toList
  | c => escapeChar c

/-- An attribute with a space in front of it. -/
def renderAttribute (a : String × String) : String :=
  " " ++ a.1 ++ "=\"" ++ String.ofList (a.2.toList.flatMap escapeQuoted) ++ "\""

/-- The attributes in the order of their names. -/
def renderAttributes (attributes : List (String × String)) : String :=
  String.join ((attributes.mergeSort fun a b => decide (a.1 ≤ b.1)).map renderAttribute)

mutual

/-- The text of a piece of markup. -/
def render : Markup → String
  | .text content => String.ofList (content.toList.flatMap escapeChar)
  | .element name attributes children =>
    let start := "<" ++ name ++ renderAttributes attributes
    match children with
    | [] => start ++ "/>"
    | child :: rest => start ++ ">\n" ++ renderAll (child :: rest) ++ "</" ++ name ++ ">"

/-- The texts of pieces of markup, each with a line break after it. -/
def renderAll : List Markup → String
  | [] => ""
  | m :: ms => render m ++ "\n" ++ renderAll ms

end

end Markup

end Flowchart
