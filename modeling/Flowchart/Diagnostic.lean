import Flowchart.Span

/-!
# Diagnostics

A diagnostic is a finding about source text: how severe it is, which kind of finding, what it says,
where, and what helps.
-/

namespace Flowchart

/-- How severe a finding is. -/
inductive Severity where
  | error
  | warning
deriving DecidableEq, Repr

/-- The name of a severity. -/
def Severity.name : Severity → String
  | .error => "error"
  | .warning => "warning"

/-- The kinds of findings that the library makes. -/
inductive Finding where
  | nestingTooDeep
  | missingSemicolon
  | assignmentInCondition
  | unclosedBlock
deriving DecidableEq, Repr

namespace Finding

/-- The findings of reading begin with `E1`, those of repair with `E2`. -/
def code : Finding → String
  | .nestingTooDeep => "E100"
  | .missingSemicolon => "E200"
  | .assignmentInCondition => "E201"
  | .unclosedBlock => "E202"

/-- What a finding is, in a few words. -/
def description : Finding → String
  | .nestingTooDeep => "nesting too deep"
  | .missingSemicolon => "missing semicolon"
  | .assignmentInCondition => "assignment in condition"
  | .unclosedBlock => "unclosed block"

end Finding

/-- A remark about one place of the source; the primary one is where the finding is. -/
structure Label where
  span : Span
  primary : Bool
  message : String
deriving DecidableEq, Repr

/-- A finding about source text. -/
structure Diagnostic where
  severity : Severity
  finding : Option Finding
  message : String
  help : Option String
  labels : List Label
deriving DecidableEq, Repr

namespace Diagnostic

/-- A diagnostic on one line: severity, code if it has one, message. -/
def render (d : Diagnostic) : String :=
  match d.finding with
  | some finding => d.severity.name ++ "[" ++ finding.code ++ "]: " ++ d.message
  | none => d.severity.name ++ ": " ++ d.message

/-- Several diagnostics on one line: the first, and how many more there are. -/
def renderAll : List Diagnostic → String
  | [] => ""
  | [d] => d.render
  | d :: ds => d.render ++ " (+" ++ toString ds.length ++ " more)"

end Diagnostic

end Flowchart
