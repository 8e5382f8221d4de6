import BlockLens.Span

set_option autoImplicit false

namespace BlockLens

structure Segment where
  generated : Span
  /-- Counted from the start of the block. -/
  source : Span
  deriving DecidableEq, Repr

namespace Segment

def isVerbatim (s : Segment) : Bool := s.generated.length = s.source.length

def toSource (s : Segment) (o : Nat) : Nat :=
  if s.isVerbatim then s.source.start + o - s.generated.start else s.source.start

def toGenerated (s : Segment) (o : Nat) : Nat :=
  if s.isVerbatim then s.generated.start + o - s.source.start else s.generated.start

end Segment

structure SourceMap where
  segments : List Segment := []
  deriving DecidableEq, Repr

namespace SourceMap

/-- The first item whose range contains the offset, or else the first whose range ends there. -/
def pick (range : Segment → Span) (l : List Segment) (o : Nat) : Option Segment :=
  (l.find? fun s => (range s).contains o).or (l.find? fun s => (range s).stop == o)

def sourceAt? (m : SourceMap) (o : Nat) : Option Nat :=
  (pick Segment.generated m.segments o).map (·.toSource o)

def generatedAt? (m : SourceMap) (o : Nat) : Option Nat :=
  (pick Segment.source m.segments o).map (·.toGenerated o)

end SourceMap

end BlockLens
