/-!
# Quoted texts in TOML

A text is basic, in double quotes and with escapes, or literal, in single quotes and without any.
Three quotes instead of one let a text run over several lines, and its line breaks stay as they are
written. Each function takes the text after the opening quotes and gives what it stands for and what
comes after the closing ones.
-/

namespace Flowchart.Toml

/-- A character that may not stand in any text. -/
def isControl (c : Char) : Bool := (c.toNat < 0x20 && c != '\t') || c.toNat == 0x7f

/-- The number that a hexadecimal digit stands for. -/
def hexDigit? (c : Char) : Option Nat :=
  if c.isDigit then some (c.toNat - '0'.toNat)
  else if 'a' ≤ c ∧ c ≤ 'f' then some (c.toNat - 'a'.toNat + 10)
  else if 'A' ≤ c ∧ c ≤ 'F' then some (c.toNat - 'A'.toNat + 10)
  else none

/-- The character whose code point hexadecimal digits give. -/
def charOfHex? (digits : List Char) : Option Char := do
  let code := (← digits.mapM hexDigit?).foldl (fun n d => 16 * n + d) 0
  if code.isValidChar then some (Char.ofNat code) else none

/-- What a backslash and one character stand for. -/
def escaped? : Char → Option Char
  | 'b' => some '\x08'
  | 'e' => some '\x1b'
  | 't' => some '\t'
  | 'n' => some '\n'
  | 'f' => some '\x0c'
  | 'r' => some '\r'
  | '"' => some '"'
  | '\\' => some '\\'
  | _ => none

/-- A character in front of a text that has been read. -/
def cons (c : Char) (r : List Char × List Char) : List Char × List Char := (c :: r.1, r.2)

/-- What follows the line break at the start of a text, if there is one. -/
def afterBreak? : List Char → Option (List Char)
  | '\n' :: cs => some cs
  | '\r' :: '\n' :: cs => some cs
  | _ => none

/-- A basic text on one line. -/
def basic : List Char → Option (List Char × List Char)
  | [] => none
  | '"' :: cs => some ([], cs)
  | '\\' :: 'x' :: a :: b :: cs => do return cons (← charOfHex? [a, b]) (← basic cs)
  | '\\' :: 'u' :: a :: b :: c :: d :: cs => do return cons (← charOfHex? [a, b, c, d]) (← basic cs)
  | '\\' :: 'U' :: a :: b :: c :: d :: e :: f :: g :: h :: cs => do
    return cons (← charOfHex? [a, b, c, d, e, f, g, h]) (← basic cs)
  | '\\' :: c :: cs => do return cons (← escaped? c) (← basic cs)
  | c :: cs => if isControl c then none else (basic cs).map (cons c)

/-- A literal text on one line. -/
def literal : List Char → Option (List Char × List Char)
  | [] => none
  | '\'' :: cs => some ([], cs)
  | c :: cs => if isControl c then none else (literal cs).map (cons c)

/-- The end of a text that three quotes close: up to two more quotes belong to the text. -/
def closing (quote : Char) (cs : List Char) : List Char × List Char :=
  let extra := (cs.take 2).takeWhile (· == quote)
  (extra, cs.drop extra.length)

/-- The text is nothing but blanks up to a line break, as after a backslash that joins two lines. -/
def endsLine (cs : List Char) : Bool :=
  (afterBreak? (cs.dropWhile fun c => c == ' ' || c == '\t')).isSome

/-- A basic text over several lines. With `joining`, a backslash has joined two lines, and blanks and
line breaks do not count until something else comes. -/
def basicLines (joining : Bool) : List Char → Option (List Char × List Char)
  | [] => none
  | '"' :: '"' :: '"' :: cs => some (closing '"' cs)
  | '\\' :: 'x' :: a :: b :: cs => do
    return cons (← charOfHex? [a, b]) (← basicLines false cs)
  | '\\' :: 'u' :: a :: b :: c :: d :: cs => do
    return cons (← charOfHex? [a, b, c, d]) (← basicLines false cs)
  | '\\' :: 'U' :: a :: b :: c :: d :: e :: f :: g :: h :: cs => do
    return cons (← charOfHex? [a, b, c, d, e, f, g, h]) (← basicLines false cs)
  | '\\' :: c :: cs =>
    if endsLine (c :: cs) then basicLines true (c :: cs)
    else do return cons (← escaped? c) (← basicLines false cs)
  | '\r' :: '\n' :: cs =>
    if joining then basicLines true cs
    else (basicLines false cs).map fun r => cons '\r' (cons '\n' r)
  | c :: cs =>
    if joining && (c == ' ' || c == '\t' || c == '\n') then basicLines true cs
    else if isControl c && c != '\n' then none
    else (basicLines false cs).map (cons c)

/-- A literal text over several lines. -/
def literalLines : List Char → Option (List Char × List Char)
  | [] => none
  | '\'' :: '\'' :: '\'' :: cs => some (closing '\'' cs)
  | '\r' :: '\n' :: cs => (literalLines cs).map fun r => cons '\r' (cons '\n' r)
  | c :: cs => if isControl c && c != '\n' then none else (literalLines cs).map (cons c)

/-- The text that begins with a quote, and what comes after it. A line break right after three opening
quotes does not count. -/
def quoted? : List Char → Option (List Char × List Char)
  | '"' :: '"' :: '"' :: cs => basicLines false ((afterBreak? cs).getD cs)
  | '"' :: cs => basic cs
  | '\'' :: '\'' :: '\'' :: cs => literalLines ((afterBreak? cs).getD cs)
  | '\'' :: cs => literal cs
  | _ => none

end Flowchart.Toml
