import Flowchart.Proofs.Fragment.Lines
import Flowchart.Proofs.Statement

/-!
# Structured code

`Code` is a statement as it is written: a simple one, a loop or an `if`. It has lines, one for each
statement, header, brace and `else`, and the node that a chart shows for it. `Code.ValidAll` says
that each part of a sequence can be told from its line alone.
-/

namespace Flowchart

open Text (isBlank trim contains)

/-- Text that may stand between the parentheses of a header or after `return`. -/
structure PlainText (t : List Char) : Prop where
  unmarked : ∀ c ∈ t, c ∉ ';' :: markers
  not_line_comment : contains "//".toList t = false
  not_block_comment : contains "/*".toList t = false
  not_else : "else".toList ∉ wordsIn t
  balanced : groupsAfter 0 t = some 0

/-- A keyword with something in parentheses. -/
def headed (keyword : String) (inside : List Char) : List Char :=
  keyword.toList ++ ' ' :: '(' :: (inside ++ [')'])

/-- A statement that calls a function. -/
def called (function : String) (arguments : List Char) : List Char :=
  function.toList ++ '(' :: (arguments ++ [')', ';'])

/-- A statement that returns a value. -/
def returned (value : List Char) : List Char := "return".toList ++ ' ' :: (value ++ [';'])

/-- Lines between braces. -/
def enclosed (lines : List (List Char)) : List (List Char) := ['{'] :: (lines ++ [['}']])

/-- A statement without a block. -/
inductive Simple where
  /-- Anything that no other rule applies to. -/
  | process (text : List Char)
  /-- Prints a message. -/
  | output (message : List Char)
  /-- Reads a variable. -/
  | input (target : List Char)
  /-- Returns a value. -/
  | stop (value : List Char)

namespace Simple

def line : Simple → List Char
  | process text => text ++ [';']
  | output message => called "printf" ('"' :: (message ++ ['"']))
  | input target => called "scanf" ('"' :: '%' :: 'd' :: '"' :: ',' :: ' ' :: '&' :: target)
  | stop value => returned value

example : (input ['n']).line = "scanf(\"%d\", &n);".toList := by decide

def node : Simple → Node
  | process text => .step .process (String.ofList text)
  | output message => .step .io (String.ofList message)
  | input target => .step .io ("Input " ++ String.ofList target)
  | stop _ => .stop

/-- The line is one fragment, under the rule for what it is. -/
def Valid : Simple → Prop
  | process text => texts (tokenize (text ++ [';'])) = [text ++ [';']] ∧
      (∀ c ∈ text.getLast?, c ≠ ';' ∧ isBlank c = false) ∧
      Rule.of ⟨text ++ [';'], .emptyAt 0⟩ [] = .process
  | output message => message ≠ [] ∧ trim message = message ∧
      ∀ c ∈ message, c ≠ '"' ∧ c ≠ '\\' ∧ c ≠ '\n'
  | input target => target ≠ [] ∧ target ≠ "else".toList ∧ ∀ c ∈ target, isWordChar c = true
  | stop value => PlainText value

theorem line_output (message : List Char) : (output message).line =
    "printf".toList ++ '(' :: '"' :: (message ++ '"' :: [')', ';']) := by
  simp only [line, called, List.cons_append, List.append_assoc, List.nil_append]

theorem line_input (target : List Char) : (input target).line = "scanf".toList ++
    '(' :: '"' :: (['%', 'd'] ++ '"' :: ',' :: ' ' :: '&' :: (target ++ [')', ';'])) := by
  simp only [line, called, List.cons_append, List.nil_append]

theorem line_stop (value : List Char) :
    (stop value).line = "return".toList ++ ' ' :: (value ++ [';']) := rfl

end Simple

/-- The header of a loop. -/
inductive LoopHeader where
  | whileTrue (condition : List Char)
  | forClauses (first condition next : List Char)

namespace LoopHeader

def line : LoopHeader → List Char
  | whileTrue condition => headed "while" condition
  | forClauses first condition next =>
    headed "for" (first ++ ';' :: ' ' :: (condition ++ ';' :: ' ' :: next))

def condition : LoopHeader → List Char
  | whileTrue condition => condition
  | forClauses _ condition _ => condition

def Valid : LoopHeader → Prop
  | whileTrue condition => PlainText condition
  | forClauses first condition next => PlainText first ∧ PlainText condition ∧ PlainText next ∧
      condition ≠ [] ∧ trim condition = condition

end LoopHeader

/-- A statement with its blocks. -/
inductive Code where
  | simple (statement : Simple)
  | loop (header : LoopHeader) (body : List Code)
  | ifThen (condition : List Char) (whenTrue : List Code)
  | ifElse (condition : List Char) (whenTrue whenFalse : List Code)

namespace Code

/-- Prints a message. -/
def isOutput : Code → Bool
  | simple (.output _) => true
  | _ => false

/-- Reads a variable. -/
def isInput : Code → Bool
  | simple (.input _) => true
  | _ => false

mutual

/-- One line for each statement, header, brace and `else`. -/
def lines : Code → List (List Char)
  | simple statement => [statement.line]
  | loop header body => header.line :: enclosed (linesAll body)
  | ifThen condition whenTrue => headed "if" condition :: enclosed (linesAll whenTrue)
  | ifElse condition whenTrue whenFalse => headed "if" condition ::
      (enclosed (linesAll whenTrue) ++ "else".toList :: enclosed (linesAll whenFalse))

/-- The lines of a sequence. -/
def linesAll : List Code → List (List Char)
  | [] => []
  | c :: cs => lines c ++ linesAll cs

end

mutual

/-- The node that shows the statement. -/
def node : Code → Node
  | simple statement => statement.node
  | loop header body => .loop (String.ofList header.condition) (nodesAll body)
  | ifThen condition whenTrue => .branch (String.ofList condition) (nodesAll whenTrue) []
  | ifElse condition whenTrue whenFalse =>
    .branch (String.ofList condition) (nodesAll whenTrue) (nodesAll whenFalse)

/-- The nodes of a sequence. -/
def nodesAll : List Code → List Node
  | [] => []
  | c :: cs => node c :: nodesAll cs

end

mutual

/-- How deep the blocks of the statement nest. -/
def depth : Code → Nat
  | simple _ => 0
  | loop _ body => depthAll body + 1
  | ifThen _ whenTrue => depthAll whenTrue + 1
  | ifElse _ whenTrue whenFalse => max (depthAll whenTrue) (depthAll whenFalse) + 1

/-- How deep the blocks of a sequence nest. -/
def depthAll : List Code → Nat
  | [] => 0
  | c :: cs => max (depth c) (depthAll cs)

end

mutual

/-- Every line of the statement can be told from the others. -/
def Valid : Code → Prop
  | simple statement => statement.Valid
  | loop header body => header.Valid ∧ ValidAll body
  | ifThen condition whenTrue => PlainText condition ∧ ValidAll whenTrue
  | ifElse condition whenTrue whenFalse =>
    PlainText condition ∧ ValidAll whenTrue ∧ ValidAll whenFalse

/-- No output stands right before another one or before an input: these become one node. -/
def ValidAll : List Code → Prop
  | [] => True
  | c :: cs => Valid c ∧ ValidAll cs ∧
      (c.isOutput = true → ∀ d ∈ cs.head?, d.isOutput = false ∧ d.isInput = false)

end

end Code

end Flowchart
