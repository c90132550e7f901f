/-!
# Text as a list of characters

Offsets into text are byte offsets of its UTF-8 form.

- **Length**: `byteLength` adds up the bytes of the characters (`byteLength_append`).
- **White space**: `isBlank` is the Unicode property White_Space; `trim` and `words` use it.
- **Lines**: `lines` cuts at every line break and `joinLines` puts the pieces together again
  (`joinLines_lines`).
-/

namespace Flowchart.Text

/-! ## Length -/

/-- The number of bytes that the characters take in UTF-8. -/
def byteLength : List Char → Nat
  | [] => 0
  | c :: cs => c.utf8Size + byteLength cs

@[simp] theorem byteLength_nil : byteLength [] = 0 := rfl

@[simp] theorem byteLength_cons (c : Char) (cs : List Char) :
    byteLength (c :: cs) = c.utf8Size + byteLength cs := rfl

@[simp] theorem byteLength_append (as bs : List Char) :
    byteLength (as ++ bs) = byteLength as + byteLength bs := by
  induction as with
  | nil => simp
  | cons c cs ih => simp [ih, Nat.add_assoc]

/-! ## White space -/

/-- The code points of White_Space, as inclusive ranges. -/
def blankRanges : List (Nat × Nat) :=
  [(0x09, 0x0d), (0x20, 0x20), (0x85, 0x85), (0xa0, 0xa0), (0x1680, 0x1680), (0x2000, 0x200a),
   (0x2028, 0x2029), (0x202f, 0x202f), (0x205f, 0x205f), (0x3000, 0x3000)]

/-- A white space character. -/
def isBlank (c : Char) : Bool :=
  blankRanges.any fun range => range.1 ≤ c.toNat && c.toNat ≤ range.2

/-- Text of white space only. -/
def isBlankText (cs : List Char) : Bool := cs.all isBlank

/-- The text from its first character that is not white space. -/
def trimStart (cs : List Char) : List Char := cs.dropWhile isBlank

/-- The text up to its last character for which `drop` is false. -/
def trimEndWhile (drop : Char → Bool) (cs : List Char) : List Char :=
  (cs.reverse.dropWhile drop).reverse

/-- The text up to its last character that is not white space. -/
def trimEnd (cs : List Char) : List Char := trimEndWhile isBlank cs

/-- The text without white space at its ends. -/
def trim (cs : List Char) : List Char := trimEnd (trimStart cs)

/-- The maximal runs of characters that are not white space, in order. -/
def words (cs : List Char) : List (List Char) :=
  (cs.splitOnP isBlank).filter fun word => !word.isEmpty

/-! ## Lines -/

/-- The text cut at every line break; there is always at least one line. -/
def lines (cs : List Char) : List (List Char) := cs.splitOn '\n'

/-- The lines with one line break between neighbours. -/
def joinLines (ls : List (List Char)) : List Char := ['\n'].intercalate ls

theorem joinLines_lines (cs : List Char) : joinLines (lines cs) = cs :=
  List.intercalate_splitOn '\n'

/-! ## Searching -/

/-- `cs` begins with `start`. -/
def startsWith (start cs : List Char) : Bool := start.isPrefixOf cs

/-- `part` occurs somewhere in the text. -/
def contains (part : List Char) : List Char → Bool
  | [] => part.isEmpty
  | c :: cs => startsWith part (c :: cs) || contains part cs

/-- Every occurrence of the two characters `a b`, read from the left, becomes `replacement`. -/
def replacePair (a b : Char) (replacement : List Char) : List Char → List Char
  | [] => []
  | [c] => [c]
  | c :: d :: cs =>
    if c = a ∧ d = b then replacement ++ replacePair a b replacement cs
    else c :: replacePair a b replacement (d :: cs)

/-- The first `a`, if there is one, becomes `replacement`. -/
def replaceFirst (a : Char) (replacement : List Char) : List Char → List Char
  | [] => []
  | c :: cs => if c = a then replacement ++ cs else c :: replaceFirst a replacement cs

end Flowchart.Text
