/-!
# Half-open ranges

A span names the bytes of a source text or the tokens of a token list that a value or a diagnostic
refers to.
-/

namespace Vee

set_option autoImplicit false

structure Span where
  start : Nat
  stop : Nat
  deriving DecidableEq, Hashable, Repr, Inhabited

namespace Span

/-- The span of a diagnostic that points nowhere. -/
def nowhere : Span := ⟨0, 0⟩

def length (s : Span) : Nat := s.stop - s.start

/-- From the start of the first to the end of the second. -/
def join (a b : Span) : Span := ⟨a.start, b.stop⟩

def text (s : Span) : String := s.start.repr ++ ".." ++ s.stop.repr

end Span

end Vee
