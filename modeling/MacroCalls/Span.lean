import MacroCalls.Text.Basic

/-!
# Spans

A span is a half-open range of byte offsets into a text. Spans come from trees and errors that
need not belong to the text they are used with, so offsets are arbitrary integers; taking the
slice of a span clamps both ends to the text. Offsets are 64 bits wide: arithmetic on them wraps
around (`wrap64`), while offsets that a scan of a text produces never need it.
-/

namespace MacroCalls

/-- The value of an offset computation: the integer in `[-2^63, 2^63)` that agrees modulo `2^64`. -/
def wrap64 (n : Int) : Int := n.bmod 0x10000000000000000

/-- A half-open range `[start, stop)` of byte offsets. -/
structure Span where
  start : Int := 0
  stop : Int := 0
  deriving DecidableEq, Repr, Inhabited

namespace Text

/-- The offset clamped into the text. -/
def clamp (t : Text) (offset : Int) : Nat := min offset.toNat t.length

/-- The bytes of `t` at the indices `[lo, hi)`. -/
def slice (t : Text) (lo hi : Nat) : Text := (t.take hi).drop lo

@[simp] theorem length_slice (t : Text) (lo hi : Nat) :
    (t.slice lo hi).length = min hi t.length - lo := by
  simp [slice]

theorem clamp_le (t : Text) (offset : Int) : t.clamp offset ≤ t.length := Nat.min_le_right ..

end Text

namespace Span

/-- The distance from start to stop. -/
def length (s : Span) : Int := wrap64 (s.stop - s.start)

/-- The part of a text that the span covers, empty if the span ends before it starts. -/
def slice (s : Span) (t : Text) : Text := t.slice (t.clamp s.start) (t.clamp s.stop)

end Span

end MacroCalls
