import Flowchart.Flow
import Flowchart.Fragment
import Flowchart.Statement

/-!
# The rule table

A fragment that is no brace falls under exactly one rule, the first of the table that applies to it.
The rule says which node of the flow tree the fragment becomes.
-/

namespace Flowchart

/-- The rules, first one first. -/
inductive Rule where
  /-- Declares something and computes nothing: no node. -/
  | declaration
  /-- The header of an `if`. -/
  | branch
  /-- The header of a `while` or a `for`. -/
  | loop
  /-- An output call that asks for the input call after it: one node for both. -/
  | promptedInput
  /-- An output call; it and those right after it become one node. -/
  | output
  | input
  /-- Ends the program. -/
  | stop
  /-- Anything else. -/
  | process
deriving DecidableEq, Repr

namespace Rule

open Statement

/-- The rule that the fragment `f` falls under when `rest` comes after it. -/
def of (f : Fragment) (rest : List Fragment) : Rule :=
  if isDeclaration f.text then .declaration
  else if startsWithKeyword "if" f.text then .branch
  else if startsWithKeyword "while" f.text || startsWithKeyword "for" f.text then .loop
  else if isOutput f.text && rest.head?.any (isInput ·.text) then .promptedInput
  else if isOutput f.text then .output
  else if isInput f.text then .input
  else if containsKeyword "return" f.text then .stop
  else .process

end Rule

namespace Node

open Statement

/-- The label of what `text?` gives, or `default`. -/
def labelOr (default : String) (text? : Option (List Char)) : String :=
  (text?.map String.ofList).getD default

/-- The condition that an `if` header shows. -/
def branchCondition (header : List Char) : String :=
  labelOr "condition" (parenthesized header)

/-- The condition that a `while` or `for` header shows. -/
def loopCondition (header : List Char) : String :=
  if startsWithKeyword "for" header then labelOr "for" (forCondition? header)
  else labelOr "while" (parenthesized header)

/-- The node of an input call. -/
def ofInput (text : List Char) : Node :=
  .step .io ("Input " ++ labelOr "Value" (inputTarget? text))

/-- The nodes of a run of output calls: none where nothing is printed, else one, which shows what
is printed where a single call prints something. -/
def ofOutputs (run : List Fragment) : List Node :=
  let texts := run.filterMap fun f => (outputText? f.text).filter (!·.isEmpty)
  match texts with
  | [] => []
  | [text] => [.step .io (String.ofList text)]
  | _ => [.step .io "Display Output"]

/-- The node of any other statement shows it without its semicolon. -/
def ofProcess (text : List Char) : Node :=
  let text := if text.getLast? = some ';' then text.dropLast else text
  .step .process (String.ofList (Text.trimEnd text))

end Node

end Flowchart
