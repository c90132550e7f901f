import Flowchart.Decimal
import Flowchart.Setting
import Flowchart.Toml.Quoted

/-!
# Scalars in TOML

Booleans, numbers, dates and times are written without quotes. `scalar?` reads such a word as a whole.

- Digits may be grouped by single underscores, each of them between two digits.
- An integer fits into 128 bits, with or without a sign bit; a decimal one has no zero in front of other
  digits.
- `inf` and `nan` are numbers, with or without a sign. No other number is too great for 64 bits.
- A time may leave out its seconds.
-/

namespace Flowchart.Toml

/-- The digits of a word in which every underscore stands between two digits. -/
def ungroup? (isDigit : Char → Bool) : List Char → Option (List Char)
  | [] => none
  | [c] => if isDigit c then some [c] else none
  | c :: '_' :: cs => if isDigit c then (ungroup? isDigit cs).map (c :: ·) else none
  | c :: cs => if isDigit c then (ungroup? isDigit cs).map (c :: ·) else none

/-- The number that digits of a base stand for. -/
def natOf (base : Nat) (digits : List Char) : Nat :=
  digits.foldl (fun n d => base * n + (hexDigit? d).getD 0) 0

/-- A digit of a base up to sixteen. -/
def isDigitOf (base : Nat) (c : Char) : Bool := (hexDigit? c).any (· < base)

/-- The number of a word of digits of a base. -/
def natWord? (base : Nat) (word : List Char) : Option Nat :=
  (ungroup? (isDigitOf base) word).map (natOf base)

/-- The sign of a word, and the rest of it. -/
def sign (word : List Char) : Bool × List Char :=
  match word with
  | '-' :: cs => (true, cs)
  | '+' :: cs => (false, cs)
  | _ => (false, word)

/-- The digits of a decimal number that has no zero in front of other digits. -/
def wholeDigits? (word : List Char) : Option (List Char) := do
  let digits ← ungroup? Char.isDigit word
  if digits.head? = some '0' ∧ digits.length ≠ 1 then none else some digits

/-- An integer. -/
def integer? (word : List Char) : Option Int := do
  let (negative, digits) := sign word
  let n ← match word with
    | '0' :: 'x' :: cs => natWord? 16 cs
    | '0' :: 'o' :: cs => natWord? 8 cs
    | '0' :: 'b' :: cs => natWord? 2 cs
    | _ => (wholeDigits? digits).map (natOf 10)
  let i : Int := if negative then -n else n
  if -Int.pow 2 127 ≤ i ∧ i < Int.pow 2 128 then some i else none

/-- The digits after the point of a number and its power of ten. -/
def tail? (word : List Char) : Option (List Char × Int) := do
  let (places, power) := (word.takeWhile fun c => c != 'e' && c != 'E',
    word.dropWhile fun c => c != 'e' && c != 'E')
  let places ← match places with
    | [] => some []
    | '.' :: cs => ungroup? Char.isDigit cs
    | _ => none
  match power with
  | [] => some (places, 0)
  | _ :: cs =>
    let (negative, digits) := sign cs
    let n := natOf 10 (← ungroup? Char.isDigit digits)
    some (places, if negative then -n else n)

/-- A number that is no integer. -/
def number? (word : List Char) : Option Float := do
  let (negative, digits) := sign word
  let magnitude ←
    if digits = "inf".toList then some (1 / 0)
    else if digits = "nan".toList then some (0 / 0)
    else do
      let isWhole (c : Char) := c.isDigit || c == '_'
      let rest := digits.dropWhile isWhole
      if rest.isEmpty then none
      let whole ← wholeDigits? (digits.takeWhile isWhole)
      let (places, power) ← tail? rest
      let value := Decimal.toFloat ⟨natOf 10 (whole ++ places), power - places.length⟩
      if value.isInf then none else some value
  return if negative then -magnitude else magnitude

/-- The number of exactly `count` digits. -/
def field? (count : Nat) (word : List Char) : Option Nat :=
  if word.length = count ∧ word.all Char.isDigit then some (natOf 10 word) else none

/-- The number of days of a month. -/
def daysOf (year month : Nat) : Nat :=
  if month = 2 then
    if year % 4 = 0 ∧ (year % 100 ≠ 0 ∨ year % 400 = 0) then 29 else 28
  else if month = 4 ∨ month = 6 ∨ month = 9 ∨ month = 11 then 30 else 31

/-- The word is a date. -/
def isDate (word : List Char) : Bool :=
  match word.splitOn '-' with
  | [year, month, day] =>
    match field? 4 year, field? 2 month, field? 2 day with
    | some y, some m, some d => 1 ≤ m && m ≤ 12 && 1 ≤ d && d ≤ daysOf y m
    | _, _, _ => false
  | _ => false

/-- The word is an hour and a minute. -/
def isClock (word : List Char) : Bool :=
  match word.splitOn ':' with
  | [hour, minute] => (field? 2 hour).any (· < 24) && (field? 2 minute).any (· < 60)
  | _ => false

/-- The word is a time of day. -/
def isTime (word : List Char) : Bool :=
  isClock (word.take 5) &&
    match word.drop 5 with
    | [] => true
    | ':' :: cs =>
      (field? 2 (cs.take 2)).any (· ≤ 60) &&
        match cs.drop 2 with
        | [] => true
        | '.' :: places => !places.isEmpty && places.all Char.isDigit
        | _ => false
    | _ => false

/-- The word is a time of day with or without its distance from universal time. -/
def isZonedTime (word : List Char) : Bool :=
  let isOffset (c : Char) := c == '+' || c == '-' || c == 'Z' || c == 'z'
  isTime (word.takeWhile fun c => !isOffset c) &&
    match word.dropWhile fun c => !isOffset c with
    | [] => true
    | [c] => c == 'Z' || c == 'z'
    | c :: cs => (c == '+' || c == '-') && isClock cs

/-- The word is a date, a time, or both. -/
def isMoment (word : List Char) : Bool :=
  isDate word || isTime word ||
    isDate (word.take 10) && (word[10]?).any (fun c => c == 'T' || c == 't' || c == ' ') &&
      isZonedTime (word.drop 11)

/-- The setting that an unquoted word stands for. -/
def scalar? (word : List Char) : Option Setting :=
  if word = "true".toList then some (.boolean true)
  else if word = "false".toList then some (.boolean false)
  else
    ((integer? word).map .integer).or (((number? word).map .number).or
      (if isMoment word then some (.moment (String.ofList word)) else none))

end Flowchart.Toml
