/-
  Spans: half-open ranges of byte offsets into a source, and values that carry one.

  A span never ends before it starts; the type holds the proof. `Span.union` is the
  smallest span over two (`Span.union_covers`, `Span.union_least`).
-/

namespace ArchScript

/-- The byte offsets from `start` up to, and not including, `stop`. -/
structure Span where
  start : Nat
  stop : Nat
  start_le_stop : start ≤ stop := by omega
deriving DecidableEq

namespace Span

instance : Inhabited Span := ⟨{ start := 0, stop := 0 }⟩

/-- The empty span at the start of a source. -/
def zero : Span := { start := 0, stop := 0 }

/-- The span between two offsets; an end before the start gives the empty span at the start. -/
def ofBounds (start stop : Nat) : Span := { start, stop := max start stop }

/-- The span of `size` bytes from `start`. -/
def ofSize (start size : Nat) : Span := { start, stop := start + size }

def size (s : Span) : Nat := s.stop - s.start

def isEmpty (s : Span) : Bool := s.start == s.stop

/-- The smallest span that covers both. An empty span counts with its position. -/
def union (s t : Span) : Span where
  start := min s.start t.start
  stop := max s.stop t.stop
  start_le_stop := by
    have := s.start_le_stop
    omega

/-- Every offset of the first span lies in the second. -/
def Within (s t : Span) : Prop := t.start ≤ s.start ∧ s.stop ≤ t.stop

theorem isEmpty_iff {s : Span} : s.isEmpty = true ↔ s.size = 0 := by
  have := s.start_le_stop
  simp only [isEmpty, size, beq_iff_eq]
  omega

theorem union_covers (s t : Span) : s.Within (s.union t) ∧ t.Within (s.union t) := by
  simp only [Within, union]
  omega

theorem union_least {s t u : Span} (hs : s.Within u) (ht : t.Within u) : (s.union t).Within u := by
  simp only [Within, union] at *
  omega

end Span

/-- A value together with the span it was read from. -/
structure Spanned (α : Type) where
  value : α
  span : Span
deriving DecidableEq

namespace Spanned

/-- Changes the value and keeps the span. -/
def map {α β : Type} (f : α → β) (x : Spanned α) : Spanned β :=
  { value := f x.value, span := x.span }

@[simp] theorem map_value {α β : Type} (f : α → β) (x : Spanned α) :
    (x.map f).value = f x.value := rfl

@[simp] theorem map_span {α β : Type} (f : α → β) (x : Spanned α) :
    (x.map f).span = x.span := rfl

/-- Two spanned values are the same when their values are; the spans do not count. -/
def same {α : Type} [BEq α] (x y : Spanned α) : Bool := x.value == y.value

end Spanned

/-- The span from the first to the last of `xs`; `none` when there is none. -/
def spanOfAll? {α : Type} : List (Spanned α) → Option Span
  | [] => none
  | x :: xs => some (x.span.union ((xs.getLast?.getD x).span))

end ArchScript
