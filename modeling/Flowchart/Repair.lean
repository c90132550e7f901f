import Flowchart.Diagnostic
import Flowchart.Statement

/-!
# Repair

Three slips are found line by line, and each comes with a proposal: a statement without its
semicolon, a condition that assigns, and blocks that are still open at the end. `analyze` gives the
findings and the text with every proposal carried out.

Blank lines, comment lines and directives are passed over, braces included.
-/

namespace Flowchart.Repair

open Statement

/-! ## One line -/

/-- The line is passed over: it is blank, a comment or a directive. -/
def isSkipped (trimmed : List Char) : Bool :=
  trimmed.isEmpty || ["//", "#", "/*", "*"].any (Text.startsWith ·.toList trimmed)

/-- The keywords of lines that need no semicolon. -/
def headerKeywords : List String := ["if", "else", "while", "for", "do"]

/-- The line is a statement without its semicolon. -/
def needsSemicolon (trimmed : List Char) : Bool :=
  !(trimmed.getLast?.any fun c => c == ';' || c == '{' || c == '}') &&
    !headerKeywords.any (startsWithKeyword · trimmed) &&
    !containsKeyword "main" trimmed

/-- The operators that hold an equals sign and do not assign. -/
def comparisons : List String := ["==", "!=", "<=", ">=", "->"]

/-- The line is the header of an `if` or `while` and assigns. -/
def assignsInCondition (trimmed : List Char) : Bool :=
  (startsWithKeyword "if" trimmed || startsWithKeyword "while" trimmed) &&
    trimmed.contains '=' &&
    !comparisons.any (Text.contains ·.toList trimmed)

/-- The span of what is not white space at the ends of a line that begins at byte `offset`. -/
def trimmedSpan (offset : Nat) (line : List Char) : Span :=
  let start := offset + Text.byteLength (line.takeWhile Text.isBlank)
  .between start (start + Text.byteLength (Text.trim line))

/-- The finding about a line, at `span`. -/
def lineDiagnostic (finding : Finding) (remark help : String) (span : Span) : Diagnostic where
  severity := .warning
  finding := some finding
  message := finding.description
  help := some help
  labels := [⟨span, true, remark⟩]

/-- The finding about a statement without its semicolon. -/
def missingSemicolon : Span → Diagnostic :=
  lineDiagnostic .missingSemicolon "statement is not terminated" "add `;` at the end of the line"

/-- The finding about a condition that assigns. -/
def assignmentInCondition : Span → Diagnostic :=
  lineDiagnostic .assignmentInCondition "`=` assigns instead of comparing" "use `==` to compare"

/-- The line with a semicolon after what is not white space at its end. -/
def insertSemicolon (line : List Char) : List Char :=
  Text.trimEnd line ++ ';' :: (line.reverse.takeWhile Text.isBlank).reverse

/-- The line with its first equals sign doubled. -/
def doubleEquals (line : List Char) : List Char := Text.replaceFirst '=' ['=', '='] line

/-- The findings about the line at byte `offset`, and the line with the proposals carried out. -/
def repairLine (offset : Nat) (line : List Char) : List Diagnostic × List Char :=
  let trimmed := Text.trim line
  if isSkipped trimmed then ([], line)
  else
    let span := trimmedSpan offset line
    let (terminated, line) :=
      if needsSemicolon trimmed then ([missingSemicolon span], insertSemicolon line)
      else ([], line)
    let (compared, line) :=
      if assignsInCondition trimmed then ([assignmentInCondition span], doubleEquals line)
      else ([], line)
    (terminated ++ compared, line)

/-! ## Open braces -/

/-- The byte offsets of the braces that are open after a text at byte `offset`, innermost first,
when those of `opened` were open before it. A closing brace closes the innermost one, if any. -/
def openAfter (offset : Nat) (opened : List Nat) : List Char → List Nat
  | [] => opened
  | c :: cs =>
    let opened :=
      if c = '{' then offset :: opened else if c = '}' then opened.tail else opened
    openAfter (offset + c.utf8Size) opened cs

/-- The braces that are open after the line at byte `offset`. -/
def openAfterLine (offset : Nat) (opened : List Nat) (line : List Char) : List Nat :=
  if isSkipped (Text.trim line) then opened else openAfter offset opened line

/-- The finding about the braces at the byte offsets `opened`, outermost first, that are open at the
end of a source of `length` bytes. -/
def unclosedBlock (length : Nat) (opened : List Nat) : Diagnostic where
  severity := .warning
  finding := some .unclosedBlock
  message := Finding.unclosedBlock.description
  help := some "close every `\x7b` with a matching `\x7d`"
  labels :=
    ⟨.emptyAt length, true,
      "expected " ++ toString opened.length ++ " more `\x7d` before end of input"⟩ ::
    opened.map fun offset => ⟨.between offset (offset + 1), false, "block opened here"⟩

/-! ## All lines -/

/-- What becomes of a list of lines: the findings about them, the repaired lines, and the braces
that are open after them, innermost first. -/
structure Lines where
  diagnostics : List Diagnostic
  repaired : List (List Char)
  opened : List Nat

/-- Repairs lines, the first of them at byte `offset`, with the braces of `opened` open before. -/
def repairLines (offset : Nat) (opened : List Nat) : List (List Char) → Lines
  | [] => ⟨[], [], opened⟩
  | line :: lines =>
    let (diagnostics, repaired) := repairLine offset line
    let rest := repairLines (offset + Text.byteLength line + 1) (openAfterLine offset opened line)
      lines
    ⟨diagnostics ++ rest.diagnostics, repaired :: rest.repaired, rest.opened⟩

/-- The findings about a source and its repaired text. -/
structure Analysis where
  diagnostics : List Diagnostic
  fixed : List Char

/-- There is something to repair. -/
def Analysis.hasIssues (a : Analysis) : Bool := !a.diagnostics.isEmpty

/-- The lines of a source, and whether a line break ends the last one. -/
def sourceLines (source : List Char) : List (List Char) × Bool :=
  let lines := Text.lines source
  if source.getLast? = some '\n' then (lines.dropLast, true) else (lines, false)

/-- Looks for slips in a source and proposes a repaired text. -/
def analyze (source : List Char) : Analysis :=
  let (lines, terminated) := sourceLines source
  let result := repairLines 0 [] lines
  let opened := result.opened.reverse
  let blocks := if opened.isEmpty then [] else [unclosedBlock (Text.byteLength source) opened]
  let fixed := Text.joinLines (result.repaired ++ opened.map fun _ => ['}'])
  { diagnostics := result.diagnostics ++ blocks
    fixed := if terminated then fixed ++ ['\n'] else fixed }

end Flowchart.Repair
