/-!
# Places in source text
-/

namespace CrossAssembler

abbrev SourceId := Nat

def noSource : SourceId := 4294967295

structure Span where
  source : SourceId
  start : Nat
  stop : Nat
  deriving DecidableEq, Repr

def Span.length (s : Span) : Nat := s.stop - s.start

end CrossAssembler
