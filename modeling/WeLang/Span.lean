/-!
# Spans

A span is a stretch of a source, from the offset of its first byte to the
offset after its last. Nothing forces the two into order: a span whose end does
not lie after its start is empty, whichever way round it was written.
-/

namespace WeLang

/-- The bytes from `start` up to, and not including, `stop`. -/
structure Span where
  start : Nat
  stop : Nat
deriving DecidableEq, Inhabited, Repr

namespace Span

/-- The empty span at an offset. -/
def point (offset : Nat) : Span :=
  ⟨offset, offset⟩

/-- How many bytes a span covers. -/
def size (span : Span) : Nat :=
  span.stop - span.start

/-- Whether a span covers no byte. -/
def isEmpty (span : Span) : Bool :=
  span.stop ≤ span.start

theorem isEmpty_iff_size {span : Span} : span.isEmpty ↔ span.size = 0 := by
  simp only [isEmpty, size, decide_eq_true_eq]
  omega

/-- Both ends, with two dots between. -/
def render (span : Span) : String :=
  toString span.start ++ ".." ++ toString span.stop

instance : ToString Span := ⟨render⟩

end Span

end WeLang
