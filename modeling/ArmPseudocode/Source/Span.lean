/-!
# Spans

A span is a half-open range of UTF-8 byte offsets into the marked text. Offsets are at most
`2^32 - 1`; a range that reaches further is cut there.
-/

namespace ArmPseudocode

/-- The bytes from `start` up to, not including, `stop`. -/
structure Span where
  start : Nat
  stop : Nat
deriving DecidableEq, Repr

namespace Span

def maxOffset : Nat := UInt32.size - 1

def none : Span := ⟨0, 0⟩

/-- The span of a range of offsets, each cut at `maxOffset`. -/
def ofRange (start stop : Nat) : Span :=
  ⟨min start maxOffset, min stop maxOffset⟩

def point (offset : Nat) : Span := ⟨offset, offset⟩

def merge (a b : Span) : Span :=
  ⟨min a.start b.start, max a.stop b.stop⟩

/-- A span in messages, as in `3..9`. -/
def text (s : Span) : String :=
  toString s.start ++ ".." ++ toString s.stop

end Span

end ArmPseudocode
