
set_option autoImplicit false

namespace BlockLens

structure Span where
  start : Nat
  stop : Nat
  deriving DecidableEq, Repr

namespace Span

def length (s : Span) : Nat := s.stop - s.start

def isEmpty (s : Span) : Bool := s.stop ≤ s.start

def contains (s : Span) (o : Nat) : Bool := s.start ≤ o && o < s.stop

/-- Both ends belong to the range: a caret just behind the last character is still there. -/
def touches (s : Span) (o : Nat) : Bool := s.start ≤ o && o ≤ s.stop

end Span

end BlockLens
