import Flowchart.Toml.Scalar
import Flowchart.Toml.Table

/-!
# Reading TOML

A document is a list of lines: an entry, a header, or nothing, with or without a comment. `Toml.parse?`
gives its settings as one table, or nothing if it is no TOML.

Lists and tables in braces nest at most `limit` deep, and no key has more than `limit` parts. The
items of a list are read with fuel: the length of the document, since each of them takes at least one
character.
-/

namespace Flowchart.Toml

/-- How deep values nest, and how many parts a key has, at most. -/
def limit : Nat := 80

/-- A reading takes something off the front of a text, or fails. -/
abbrev Reader := StateT (List Char) Option

/-! ## Between the words -/

/-- Takes spaces and tabs. -/
def blanks : Reader Unit := modify fun cs => cs.dropWhile fun c => c == ' ' || c == '\t'

/-- Takes the character `c` if it comes next. -/
def take? (c : Char) : Reader Bool := do
  match ← get with
  | d :: cs => if c = d then set cs; return true else return false
  | [] => return false

/-- Takes the character `c`. -/
def expect (c : Char) : Reader Unit := do guard (← take? c)

/-- Takes a comment, if one comes next. -/
def comment : Reader Unit := do
  if ← take? '#' then
    let text ← get
    let inside := text.takeWhile fun c => c != '\n' && c != '\r'
    guard (!inside.any isControl)
    set (text.drop inside.length)

/-- Takes a line break, or nothing at the end of the text. -/
def endOfLine : Reader Unit := do
  match ← get with
  | [] => return
  | text => set (← (afterBreak? text : Option (List Char)))

/-- Takes the rest of a line on which nothing but a comment follows. -/
def restOfLine : Reader Unit := do
  blanks
  comment
  endOfLine

/-- Takes blanks, comments and line breaks, at most `fuel` lines of them. -/
def gap : Nat → Reader Unit
  | 0 => failure
  | fuel + 1 => do
    blanks
    comment
    match afterBreak? (← get) with
    | none => return
    | some rest =>
      set rest
      gap fuel

/-! ## Keys -/

/-- A character of a key without quotes. -/
def isKeyChar (c : Char) : Bool := c.isAlphanum || c == '_' || c == '-'

/-- Takes one part of a key. -/
def keyPart : Reader String := do
  let text ← get
  match text with
  | '"' :: cs =>
    let (part, rest) ← (basic cs : Option _)
    set rest
    return String.ofList part
  | '\'' :: cs =>
    let (part, rest) ← (literal cs : Option _)
    set rest
    return String.ofList part
  | _ =>
    let part := text.takeWhile isKeyChar
    guard (!part.isEmpty)
    set (text.drop part.length)
    return String.ofList part

/-- Takes a key of at most `parts` parts with points in between: all parts but the last, and the
last. -/
def keyUpTo : (parts : Nat) → Reader (List String × String)
  | 0 => failure
  | parts + 1 => do
    blanks
    let part ← keyPart
    blanks
    if ← take? '.' then
      let (path, name) ← keyUpTo parts
      return (part :: path, name)
    else return ([], part)

/-- Takes a key. -/
def key : Reader (List String × String) := keyUpTo limit

/-! ## Values -/

/-- A character of an unquoted value. -/
def isWordPart (c : Char) : Bool := isKeyChar c || c == '+' || c == '.' || c == ':'

/-- Takes an unquoted value. A space may stand between a date and a time. -/
def word : Reader Setting := do
  let text ← get
  let first := text.takeWhile isWordPart
  let rest := text.drop first.length
  let second := match rest with
    | ' ' :: cs => ' ' :: cs.takeWhile isWordPart
    | _ => []
  let whole := if isDate first ∧ isMoment (first ++ second) then first ++ second else first
  set (text.drop whole.length)
  (scalar? whole : Option Setting)

mutual

/-- Takes a value in which lists and tables nest at most `depth` deep. -/
def value (depth : Nat) : (fuel : Nat) → Reader Setting
  | 0 => failure
  | fuel + 1 => do
    match ← get with
    | '"' :: _ | '\'' :: _ =>
      let (text, rest) ← (quoted? (← get) : Option _)
      set rest
      return .text (String.ofList text)
    | '[' :: rest =>
      guard (0 < depth)
      set rest
      return .list (← listItems (depth - 1) fuel)
    | '\x7b' :: rest =>
      guard (0 < depth)
      set rest
      return .table (settings (← inlineEntries (depth - 1) fuel []))
    | _ => word

/-- Takes the items of a list and its closing bracket. -/
def listItems (depth : Nat) : (fuel : Nat) → Reader (List Setting)
  | 0 => failure
  | fuel + 1 => do
    gap (fuel + 1)
    if ← take? ']' then return []
    let item ← value depth fuel
    gap (fuel + 1)
    if ← take? ',' then return item :: (← listItems depth fuel)
    expect ']'
    return [item]

/-- Takes the entries of a table in braces and its closing brace. -/
def inlineEntries (depth : Nat) : (fuel : Nat) → Entries → Reader Entries
  | 0, _ => failure
  | fuel + 1, entries => do
    gap (fuel + 1)
    if ← take? '\x7d' then return entries
    let (path, name) ← key
    expect '='
    blanks
    let v ← value depth fuel
    let entries ← (entries.put? path name v : Option Entries)
    gap (fuel + 1)
    if ← take? ',' then inlineEntries depth fuel entries
    else
      expect '\x7d'
      return entries

end

/-! ## Documents -/

/-- A document under construction: its entries, and the path to the section that is open. -/
structure Draft where
  entries : Entries
  opened : List String

/-- Takes a line and adds it to a document. -/
def line (fuel : Nat) (d : Draft) : Reader Draft := do
  blanks
  match ← get with
  | '[' :: '[' :: rest =>
    set rest
    let (path, name) ← key
    expect ']'
    expect ']'
    restOfLine
    return ⟨← (d.entries.openNext? path name : Option Entries), path ++ [name]⟩
  | '[' :: rest =>
    set rest
    let (path, name) ← key
    expect ']'
    restOfLine
    return ⟨← (d.entries.open? path name : Option Entries), path ++ [name]⟩
  | [] | '#' :: _ | '\n' :: _ | '\r' :: _ =>
    restOfLine
    return d
  | _ =>
    let (path, name) ← key
    expect '='
    blanks
    let v ← value limit fuel
    restOfLine
    return { d with entries := ← (d.entries.putAt? d.opened path name v : Option Entries) }

/-- Takes lines, at most `fuel` of them, until nothing is left. -/
def document : Nat → Draft → Reader Draft
  | 0, _ => failure
  | fuel + 1, d => do
    if (← get).isEmpty then return d
    let length := (← get).length
    document fuel (← line (length + 1) d)

/-- The settings of a document. A byte order mark at its start does not count. -/
def parse? (text : String) : Option Setting := do
  let text := text.toList
  let text := if text.head? = some '\ufeff' then text.tail else text
  let (draft, _) ← (document (text.length + 1) ⟨[], []⟩).run text
  return .table (settings draft.entries)

end Flowchart.Toml
