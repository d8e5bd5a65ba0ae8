/-!
Places in source text. A span is a half-open interval of byte positions in one of the sources that
take part in a compilation.
-/

namespace ArrayKernel

structure Span where
  file : Nat
  start : Nat
  stop : Nat
  deriving DecidableEq, Repr, Inhabited, Hashable

namespace Span

def merge (a b : Span) : Span :=
  { file := a.file, start := min a.start b.start, stop := max a.stop b.stop }

def text (s : Span) : String := s!"{s.start}..{s.stop}"

/-- Line and column of the start, both counted from one, the column in bytes. A start past the end
of the source counts as its end. -/
def lineCol (s : Span) (source : List Char) : Nat × Nat :=
  let before := source.take s.start
  let line := before.filter (· == '\n')
  let lastLine := before.reverse.takeWhile (· != '\n')
  (line.length + 1, lastLine.length + 1)

end Span

structure Name where
  text : String
  span : Span
  deriving DecidableEq, Repr, Inhabited

end ArrayKernel
