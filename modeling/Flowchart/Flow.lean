/-!
# Flow trees

A flow tree is the control structure of a program: steps in sequence, and decisions that hold
sequences of their own. A `Program` is a sequence that begins with a start node unless it is empty.
-/

namespace Flowchart

/-- What a step that decides nothing does. -/
inductive StepKind where
  /-- The program begins. -/
  | start
  /-- The program ends. -/
  | stop
  /-- Something is computed. -/
  | process
  /-- Something is read or printed. -/
  | io
deriving DecidableEq, Repr

/-- A node of a flow tree. -/
inductive Node where
  | step (kind : StepKind) (label : String)
  /-- Goes one of two ways and comes together again. -/
  | branch (condition : String) (whenTrue whenFalse : List Node)
  /-- Repeats its body while the condition holds. -/
  | loop (condition : String) (body : List Node)
deriving Repr

/-- The kind of a node without its contents. -/
inductive NodeKind where
  | step (kind : StepKind)
  | branch
  | loop
deriving DecidableEq, Repr

namespace NodeKind

/-- Drawn as a diamond. -/
def isDecision : NodeKind → Bool
  | .step _ => false
  | .branch | .loop => true

/-- Where a program begins or ends. -/
def isTerminal : NodeKind → Bool
  | .step .start | .step .stop => true
  | _ => false

/-- The name of the kind in a chart. -/
def name : NodeKind → String
  | .step .start => "start"
  | .step .stop => "end"
  | .step .process => "process"
  | .step .io => "io"
  | .branch => "if"
  | .loop => "loop"

end NodeKind

namespace Node

/-- The node that a program begins with. -/
def start : Node := .step .start "Start Program"

/-- The node that a program ends with. -/
def stop : Node := .step .stop "End Program"

def kind : Node → NodeKind
  | .step kind _ => .step kind
  | .branch .. => .branch
  | .loop .. => .loop

/-- The text inside the node's shape; for a decision, its condition. -/
def label : Node → String
  | .step _ label => label
  | .branch condition _ _ => condition
  | .loop condition _ => condition

mutual

/-- The number of nodes of the subtree, the node itself included. -/
def count : Node → Nat
  | .step .. => 1
  | .branch _ whenTrue whenFalse => 1 + (countAll whenTrue + countAll whenFalse)
  | .loop _ body => 1 + countAll body

/-- The number of nodes of a sequence and everything below it. -/
def countAll : List Node → Nat
  | [] => 0
  | n :: ns => count n + countAll ns

end

mutual

/-- One for a step, and one more than the deepest sequence inside for a decision. -/
def depth : Node → Nat
  | .step .. => 1
  | .branch _ whenTrue whenFalse => 1 + max (depthAll whenTrue) (depthAll whenFalse)
  | .loop _ body => 1 + depthAll body

/-- The depth of the deepest node of a sequence, zero if there is none. -/
def depthAll : List Node → Nat
  | [] => 0
  | n :: ns => max (depth n) (depthAll ns)

end

end Node

/-- A sequence of nodes is one of a program if it begins with a start node, unless it is empty. -/
def BeginsWithStart (nodes : List Node) : Prop :=
  ∀ first ∈ nodes.head?, first.kind = .step .start

/-- The flow tree of a whole program. -/
structure Program where
  nodes : List Node
  beginsWithStart : BeginsWithStart nodes

namespace Program

/-- The program without any node. -/
def empty : Program := ⟨[], by simp [BeginsWithStart]⟩

instance : Inhabited Program := ⟨empty⟩

/-- The program of a sequence: a start node is put in front of it where it has none. -/
def ofNodes (nodes : List Node) : Program :=
  match nodes with
  | [] => empty
  | first :: rest =>
    if h : first.kind = .step .start then ⟨first :: rest, by simpa [BeginsWithStart] using h⟩
    else ⟨.start :: first :: rest, by simp [BeginsWithStart, Node.start, Node.kind]⟩

def isEmpty (p : Program) : Bool := p.nodes.isEmpty

/-- The number of nodes of the whole tree. -/
def count (p : Program) : Nat := Node.countAll p.nodes

/-- The depth of the whole tree. -/
def depth (p : Program) : Nat := Node.depthAll p.nodes

end Program

end Flowchart
