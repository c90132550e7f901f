import Flowchart.Diagnostic
import Flowchart.Rule

/-!
# Reading blocks

A block is the sequence of fragments up to the closing brace that ends it, or up to the end. Reading
one gives its nodes and the fragments after it. It fails for one cause only: a block that a header
opens lies deeper than allowed.

- An opening brace after an `if`, `else`, `while` or `for` opens a block one level deeper. Any other
  opening brace opens nothing and is passed over, while every closing brace ends a block.
- `Block.read` reads one block from the front of a list of fragments; `Block.readFrom` counts where
  the block begins and ends.
- `Program.ofFragments` and `Program.ofSource` read the outermost block of a program.
-/

namespace Flowchart

namespace Block

/-- A header opens a block deeper than `limit` levels. -/
structure TooDeep where
  header : Span
  limit : Nat
deriving DecidableEq, Repr

/-- What is reported of a block that lies too deep. -/
def TooDeep.diagnostic (e : TooDeep) : Diagnostic where
  severity := .error
  finding := some .nestingTooDeep
  message := "nesting too deep"
  help := some "raise `parser.max_depth` or flatten the control flow"
  labels := [⟨e.header, true, "this block exceeds " ++ toString e.limit ++ " nested levels"⟩]

/-- The nodes read from the front of `input` and the fragments left, which are never more than there
were. -/
structure Reading (input : List Fragment) where
  nodes : List Node
  rest : List Fragment
  length_rest_le : rest.length ≤ input.length

namespace Reading

variable {input : List Fragment}

/-- Nothing is read and everything is left. -/
def nothing (input : List Fragment) : Reading input := ⟨[], input, Nat.le_refl _⟩

/-- The same reading, with a fragment in front that gives no node. -/
def skip (f : Fragment) (r : Reading input) : Reading (f :: input) :=
  ⟨r.nodes, r.rest, Nat.le_succ_of_le r.length_rest_le⟩

/-- The same fragments left, but other nodes read. -/
def withNodes (nodes : List Node) (r : Reading input) : Reading input := { r with nodes }

/-- A reading continued by another one of what it left. -/
def append (r : Reading input) (s : Reading r.rest) : Reading input :=
  ⟨r.nodes ++ s.nodes, s.rest, Nat.le_trans s.length_rest_le r.length_rest_le⟩

end Reading

mutual

/-- Reads a block that lies `depth` levels deep. -/
def block (limit depth : Nat) (input : List Fragment) : Except TooDeep (Reading input) :=
  match input with
  | [] => .ok (.nothing [])
  | f :: fs =>
    if f.isClose then .ok ((Reading.nothing fs).skip f)
    else if f.isOpen then
      match block limit depth fs with
      | .error e => .error e
      | .ok r => .ok (r.skip f)
    else
      match statement limit depth f fs with
      | .error e => .error e
      | .ok s =>
        match block limit depth s.rest with
        | .error e => .error e
        | .ok r => .ok ((s.append r).skip f)
termination_by (input.length, 0)
decreasing_by
  · exact Prod.Lex.left _ _ (Nat.lt_succ_self _)
  · exact Prod.Lex.left _ _ (Nat.lt_succ_self _)
  · exact Prod.Lex.left _ _ (Nat.lt_succ_of_le s.length_rest_le)

/-- Reads what belongs to the fragment `f`, which is no brace, from the fragments after it. -/
def statement (limit depth : Nat) (f : Fragment) (input : List Fragment) :
    Except TooDeep (Reading input) :=
  match Rule.of f input with
  | .declaration => .ok (.nothing input)
  | .branch =>
    let condition := Node.branchCondition f.text
    match body limit depth f input with
    | .error e => .error e
    | .ok t =>
      match h : t.rest with
      | [] => .ok (t.withNodes [.branch condition t.nodes []])
      | g :: gs =>
        if g.isElse then
          match body limit depth f gs with
          | .error e => .error e
          | .ok u =>
            .ok ⟨[.branch condition t.nodes u.nodes], u.rest, by
              have ht := t.length_rest_le
              have hu := u.length_rest_le
              rw [h, List.length_cons] at ht
              omega⟩
        else .ok (t.withNodes [.branch condition t.nodes []])
  | .loop =>
    match body limit depth f input with
    | .error e => .error e
    | .ok t => .ok (t.withNodes [.loop (Node.loopCondition f.text) t.nodes])
  | .promptedInput =>
    match input with
    | [] => .ok (.nothing [])
    | g :: gs => .ok (((Reading.nothing gs).skip g).withNodes [.ofInput g.text])
  | .output =>
    let run := f :: input.takeWhile (Statement.isOutput ·.text)
    .ok ⟨Node.ofOutputs run, input.dropWhile (Statement.isOutput ·.text),
      (List.dropWhile_suffix _).length_le⟩
  | .input => .ok ((Reading.nothing input).withNodes [.ofInput f.text])
  | .stop => .ok ((Reading.nothing input).withNodes [.stop])
  | .process => .ok ((Reading.nothing input).withNodes [.ofProcess f.text])
termination_by (input.length, 2)
decreasing_by
  · exact Prod.Lex.right _ (by omega)
  · have ht := t.length_rest_le
    rw [h, List.length_cons] at ht
    exact Prod.Lex.left _ _ (by omega)
  · exact Prod.Lex.right _ (by omega)

/-- Reads the block that the header `f` opens, if the next fragment opens one. -/
def body (limit depth : Nat) (f : Fragment) (input : List Fragment) :
    Except TooDeep (Reading input) :=
  match input with
  | [] => .ok (.nothing [])
  | g :: gs =>
    if g.isOpen then
      if limit < depth + 1 then .error ⟨f.span, limit⟩
      else
        match block limit (depth + 1) gs with
        | .error e => .error e
        | .ok r => .ok (r.skip g)
    else .ok (.nothing (g :: gs))
termination_by (input.length, 1)
decreasing_by exact Prod.Lex.left _ _ (Nat.lt_succ_self _)

end

/-- The nodes of the block at the front of `fragments`, `depth` levels deep, and the fragments after
it. -/
def read (limit depth : Nat) (fragments : List Fragment) :
    Except TooDeep (List Node × List Fragment) :=
  (block limit depth fragments).map fun r => (r.nodes, r.rest)

/-- The nodes of the block that begins at index `start`, and the index after it. -/
def readFrom (limit depth start : Nat) (fragments : List Fragment) :
    Except TooDeep (List Node × Nat) :=
  (read limit depth (fragments.drop start)).map fun (nodes, rest) =>
    (nodes, max start (fragments.length - rest.length))

end Block

namespace Program

/-- The program that the fragments make; what comes after the outermost block is left out. -/
def ofFragments (limit : Nat) (fragments : List Fragment) : Except Block.TooDeep Program :=
  (Block.read limit 0 fragments).map fun (nodes, _) => .ofNodes nodes

/-- The program that a source text makes. -/
def ofSource (limit : Nat) (source : List Char) : Except Block.TooDeep Program :=
  ofFragments limit (tokenize source)

end Program

end Flowchart
