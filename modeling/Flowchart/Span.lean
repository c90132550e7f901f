/-!
# Spans

A span is a half-open range of byte offsets into source text. It never stops before it starts:
`Span.between` moves such a stop to the start.
-/

namespace Flowchart

/-- The bytes from `start` up to, not including, `stop`. -/
structure Span where
  start : Nat
  stop : Nat
  start_le_stop : start ≤ stop := by omega
deriving DecidableEq, Repr

namespace Span

/-- The span from `start` to `stop`, empty where `stop` lies before `start`. -/
def between (start stop : Nat) : Span where
  start := start
  stop := max start stop

/-- The empty span at `offset`. -/
def emptyAt (offset : Nat) : Span where
  start := offset
  stop := offset

instance : Inhabited Span := ⟨.emptyAt 0⟩

/-- The number of bytes in the span. -/
def length (s : Span) : Nat := s.stop - s.start

/-- The span holds no byte. -/
def isEmpty (s : Span) : Bool := s.start == s.stop

/-- The least span that covers both. -/
def union (s t : Span) : Span where
  start := min s.start t.start
  stop := max s.stop t.stop
  start_le_stop := by have := s.start_le_stop; have := t.start_le_stop; omega

/-- The span moved right by `distance` bytes. -/
def moved (distance : Nat) (s : Span) : Span where
  start := s.start + distance
  stop := s.stop + distance
  start_le_stop := by have := s.start_le_stop; omega

/-- A span is written `start..stop`. -/
def render (s : Span) : String := toString s.start ++ ".." ++ toString s.stop

@[ext] theorem ext {s t : Span} (hstart : s.start = t.start) (hstop : s.stop = t.stop) : s = t := by
  cases s; cases t; simp_all

@[simp] theorem start_between (a b : Nat) : (between a b).start = a := rfl

@[simp] theorem stop_between (a b : Nat) : (between a b).stop = max a b := rfl

end Span

end Flowchart
