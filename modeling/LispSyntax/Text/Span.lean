/-! # Spans

A span is a range of byte offsets whose start is not above its end. The order of the two bounds is
part of the type, so a span read from outside has to pass `Span.ofBounds?`.
-/

namespace LispSyntax

/-- The byte offsets from `start` up to, not including, `stop`. -/
structure Span where
  start : Nat
  stop : Nat
  start_le_stop : start ≤ stop
deriving DecidableEq, Repr

namespace Span

instance : Inhabited Span := ⟨⟨0, 0, Nat.le_refl 0⟩⟩

def ofBounds? (start stop : Nat) : Option Span :=
  if h : start ≤ stop then some ⟨start, stop, h⟩ else none

def ofSize (start size : Nat) : Span :=
  ⟨start, start + size, Nat.le_add_right start size⟩

def empty (offset : Nat) : Span :=
  ⟨offset, offset, Nat.le_refl offset⟩

def size (s : Span) : Nat :=
  s.stop - s.start

def cover (a b : Span) : Span where
  start := min a.start b.start
  stop := max a.stop b.stop
  start_le_stop := by have := a.start_le_stop; omega

def shift (n : Nat) (s : Span) : Span :=
  ⟨n + s.start, n + s.stop, Nat.add_le_add_left s.start_le_stop n⟩

/-- Whether the offset lies in the span or at its end. -/
def touches (s : Span) (offset : Nat) : Bool :=
  decide (s.start ≤ offset) && decide (offset ≤ s.stop)

def render (s : Span) : String :=
  toString s.start ++ ".." ++ toString s.stop

end Span

end LispSyntax
