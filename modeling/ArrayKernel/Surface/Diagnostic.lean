import ArrayKernel.Surface.Span
import ArrayKernel.Text.Lines

/-!
Reports about source text.
-/

namespace ArrayKernel

inductive Severity where
  | error
  | warning
  deriving DecidableEq, Repr

structure Diagnostic where
  severity : Severity := .error
  message : String
  span : Span
  notes : List String := []
  help : Option String := none
  deriving DecidableEq, Repr

namespace Diagnostic

def header (d : Diagnostic) : String :=
  (match d.severity with
    | .error => "Error: "
    | .warning => "Warning: ") ++ d.message

/-- Where a rendered report points: file, line and column of the start of the span. Reports count
characters and know every line end of Unicode; a start past the end of the source has no place in
it. -/
def location (d : Diagnostic) (file source : String) : String :=
  let cs := source.toList
  if cs.length < d.span.start then file ++ ":?:?"
  else
    let (line, col) := Text.position cs d.span.start
    s!"{file}:{line}:{col}"

/-- What a rendered report says under the marked text. Only the last note is kept. -/
def remarks (d : Diagnostic) : List String :=
  (d.help.map ("Help: " ++ ·)).toList ++ (d.notes.getLast?.map ("Note: " ++ ·)).toList

end Diagnostic

end ArrayKernel
