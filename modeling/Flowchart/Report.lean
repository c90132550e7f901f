import Flowchart.Failure
import Flowchart.Text

/-!
# Reports

A report is a finding or a failure as it is shown to a reader: a head, whether an excerpt of the source
goes with it, and what helps. A failure to read a source gives one report for each of its diagnostics,
any other failure exactly one.
-/

namespace Flowchart

/-- Whether an excerpt of the source goes with a report. -/
inductive Excerpt where
  /-- There is nothing to show. -/
  | none
  | drawn
  /-- A label ends more than one byte past the end of the source. -/
  | unreadable
deriving DecidableEq, Repr

/-- A finding or a failure, as it is shown. -/
structure Report where
  head : List String
  excerpt : Excerpt
  help : Option String
deriving DecidableEq, Repr

namespace Report

/-- A line without spaces at its end and without the carriage return of a line break. Tabs and other
white space stay. -/
def trimLine (line : List Char) : List Char :=
  let line := Text.trimEndWhile (· == ' ') line
  if line.getLast? = some '\r' then Text.trimEndWhile (· == ' ') line.dropLast else line

/-- A message over several lines: the first after `first`, the others after `next`. -/
def indent (first next : String) (message : String) : List String :=
  (Text.lines message.toList).mapIdx fun i line =>
    String.ofList (trimLine ((if i = 0 then first else next).toList ++ line))

/-- The lines that name a code. -/
def codeLines : Option String → List String
  | none => []
  | some code => [code, ""]

/-- The report of a diagnostic about a source of `length` bytes. -/
def ofDiagnostic (length : Nat) (d : Diagnostic) : Report where
  head :=
    let mark := match d.severity with
      | .error => "x"
      | .warning => "!"
    codeLines (d.finding.map Finding.code) ++ indent ("  " ++ mark ++ " ") "  | " d.message
  excerpt :=
    if d.labels.isEmpty then .none
    else if d.labels.any fun label => length + 1 < label.span.stop then .unreadable
    else .drawn
  help := d.help

/-- The reports of diagnostics about a source. -/
def ofDiagnostics (source : List Char) (ds : List Diagnostic) : List Report :=
  ds.map (ofDiagnostic (Text.byteLength source))

/-- The code of a failure that is not about a source. -/
def failureCode? : Failure → Option String
  | .unreadable _ | .noConfig _ | .badConfig => some "flowcode::io"
  | .layout _ => some "flowcode::layout"
  | .color _ | .unwritable _ => some "flowcode::export"
  | .source .. => none

/-- What helps against a failure. -/
def failureHelp? : Failure → Option String
  | .layout _ => some "raise `layout.max_depth` in the configuration"
  | _ => none

/-- The reports of a failure. -/
def ofFailure : Failure → List Report
  | .source ds text => ofDiagnostics text ds
  | failure =>
    [{ head := codeLines (failureCode? failure) ++ indent "  x " "  | " failure.message ++
          (failure.cause?.map (indent "  `-> " "      ")).getD []
       excerpt := .none
       help := failureHelp? failure }]

end Report

end Flowchart
