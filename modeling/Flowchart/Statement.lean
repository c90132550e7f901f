import Flowchart.Lexeme

/-!
# What a statement says

Questions about the text of one statement: which keyword it begins with or contains, whether it
declares, prints or reads something, and the part of it that is worth showing in a chart.

- Keywords are whole words outside literals (`containsKeyword`) or at the very start
  (`startsWithKeyword`).
- `parenthesized` is the condition of a header, `forCondition?` the middle clause of a `for`.
- `outputText?` is what an output call prints, `inputTarget?` the variable that an input call fills.
-/

namespace Flowchart.Statement

/-! ## Keywords -/

/-- The text begins with `keyword`, and no word character follows it. -/
def startsWithKeyword (keyword : String) (text : List Char) : Bool :=
  Text.startsWith keyword.toList text &&
    !(text.drop keyword.toList.length).head?.any isWordChar

/-- One of the words of the text, literals left out, is `keyword`. -/
def containsKeyword (keyword : String) (text : List Char) : Bool :=
  (lexemes text).contains ⟨.word, keyword.toList⟩

/-- The call that prints. -/
def outputCall : String := "printf"

/-- The call that reads. -/
def inputCall : String := "scanf"

/-- The keywords that a declaration begins with. -/
def typeKeywords : List String :=
  ["int", "float", "char", "double", "long", "short", "unsigned", "void"]

/-- The statement prints. -/
def isOutput (text : List Char) : Bool := startsWithKeyword outputCall text

/-- The statement reads. -/
def isInput (text : List Char) : Bool := startsWithKeyword inputCall text

/-- The statement declares something without a value for it. -/
def isDeclaration (text : List Char) : Bool :=
  typeKeywords.any (startsWithKeyword · text) && !text.contains '='

/-! ## Conditions -/

/-- The lexemes before the parenthesis that closes a group which has `depth` more groups open inside
it, if it is closed at all. -/
def insideGroup (depth : Nat) : List Lexeme → Option (List Lexeme)
  | [] => none
  | l :: ls =>
    match l.kind, depth with
    | .closeParen, 0 => some []
    | .closeParen, depth + 1 => (insideGroup depth ls).map (l :: ·)
    | .openParen, depth => (insideGroup (depth + 1) ls).map (l :: ·)
    | _, depth => (insideGroup depth ls).map (l :: ·)

/-- The text before the last `c`, if there is one. -/
def beforeLast? (c : Char) (text : List Char) : Option (List Char) :=
  match text.reverse.dropWhile (· != c) with
  | [] => none
  | _ :: before => some before.reverse

/-- The text of the first group in parentheses. Where the parentheses do not balance it reaches to
the last closing one. -/
def parenthesized (text : List Char) : Option (List Char) :=
  match text.dropWhile (· != '(') with
  | [] => none
  | _ :: inside =>
    match insideGroup 0 (lexemes inside) with
    | some group => some (group.flatMap Lexeme.text)
    | none => beforeLast? ')' inside

/-- The middle clause of a `for` header, unless it is blank. -/
def forCondition? (text : List Char) : Option (List Char) := do
  let clause ← ((← parenthesized text).splitOn ';')[1]?
  let condition := Text.trim clause
  if condition.isEmpty then none else some condition

/-! ## Output and input -/

/-- What a string literal prints on one line: without its quotes, without line breaks and with a
space for each tab. -/
def printed (literal : List Char) : List Char :=
  let inner := literal.tail
  let inner := if inner.getLast? = some '"' then inner.dropLast else inner
  Text.trim (Text.replacePair '\\' 't' [' '] (Text.replacePair '\\' 'n' [] inner))

/-- What the first string literal of the statement prints. -/
def outputText? (text : List Char) : Option (List Char) :=
  ((lexemes text).find? (·.kind = .string)).map fun literal => printed literal.text

/-- The word right after a comma, white space and one `&` in between left out. -/
def argument? (text : List Char) : Option (List Char) :=
  let text := text.dropWhile fun c => c == ' ' || c == '\t' || c == '\r' || c == '\n'
  let text := if text.head? = some '&' then text.tail else text
  let word := text.takeWhile isWordChar
  if word.isEmpty then none else some word

/-- The variable that an input call fills: the first word that stands right after a comma. -/
def inputTarget? : List Char → Option (List Char)
  | [] => none
  | c :: cs => if c = ',' then (argument? cs).or (inputTarget? cs) else inputTarget? cs

end Flowchart.Statement
