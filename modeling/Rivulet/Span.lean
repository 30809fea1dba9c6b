/-!
# Spans of source text

Everything the compiler says about a program is said about a range of its text. A `Span` is such a
range, counted in bytes of the UTF-8 encoding, with its end excluded.

Spans are plain data: nothing here requires `start ≤ stop`, because a span that is read back from a
program built by hand may be anything. That the spans of a *parsed* program are well placed is a
theorem about the parser, not a field of this type.
-/

set_option autoImplicit false

namespace Rivulet

/-- The bytes `start`, `start + 1`, …, `stop - 1` of a source text. -/
structure Span where
  /-- The offset of the first byte. -/
  start : Nat
  /-- The offset just past the last byte. -/
  stop : Nat
deriving DecidableEq, Inhabited

namespace Span

/-- The empty span at the front of a text, for nodes that stand nowhere in it. -/
def nowhere : Span := ⟨0, 0⟩

/-- The span from the start of `s` to the end of `t`. -/
def through (s t : Span) : Span := ⟨s.start, t.stop⟩

/-- Both offsets with two dots between them, as in `3..7`. -/
def render (s : Span) : String := s!"{s.start}..{s.stop}"

end Span

end Rivulet
