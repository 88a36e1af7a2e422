/-! Positions in source text: half-open ranges of 32-bit offsets. -/
namespace LateBind

/-- A range of offsets; `stop` is exclusive. Nothing forces `start ≤ stop`. -/
structure Span where
  start : UInt32
  stop : UInt32
deriving DecidableEq, Repr, Inhabited

namespace Span

/-- The range of nodes that no source text stands for. -/
def dummy : Span := ⟨0, 0⟩

/-- Number of offsets covered; an inverted range covers none. -/
def length (s : Span) : UInt32 :=
  if s.stop < s.start then 0 else s.stop - s.start

/-- An inverted range has no length but is not empty. -/
def isEmpty (s : Span) : Bool := s.start == s.stop

/-- The least range that has the smaller start and the larger stop. -/
def merge (s t : Span) : Span :=
  ⟨if t.start < s.start then t.start else s.start, if s.stop < t.stop then t.stop else s.stop⟩

def text (s : Span) : String :=
  toString s.start.toNat ++ ".." ++ toString s.stop.toNat

end Span

end LateBind
