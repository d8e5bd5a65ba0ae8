import ArrayKernel.Surface.Diagnostic
import ArrayKernel.Surface.Lexeme
import ArrayKernel.Text.Octets

/-!
What can be wrong with the text of a kernel, and how it is reported.
-/

namespace ArrayKernel.Surface

/-- A cause of rejection. The `found` of a cause is the word that stood there, or nothing at the end
of the input. -/
inductive Fault where
  | openComment
  | malformedHex
  | integerTooLarge
  | stringLiteral
  | strayOctet (octet : Char)
  | expectedLexeme (wanted found : Option Lexeme)
  | expectedIdentifier (found : Option Lexeme)
  | expectedKernel (found : Option Lexeme)
  | afterKernel (found : Option Lexeme)
  | expectedOf (found : Option Lexeme)
  | expectedExpression (found : Option Lexeme)
  | nestingTooDeep
  | severalDeclarators
  | chainedAssignment
  | commaExpression
  deriving DecidableEq, Repr

namespace Fault

def message : Fault → String
  | openComment => "unterminated block comment"
  | malformedHex => "hexadecimal literal is malformed"
  | integerTooLarge => "integer literal is too large"
  | stringLiteral => "string literals are not supported in kernels"
  | strayOctet c => s!"unexpected character '{c}' (U+" ++ Text.upperHex 4 c.toNat ++ ")"
  | expectedLexeme wanted found =>
    "expected " ++ Lexeme.describe? wanted ++ ", found " ++ Lexeme.describe? found
  | expectedIdentifier found => "expected identifier, found " ++ Lexeme.describe? found
  | expectedKernel found => "expected a kernel function, found " ++ Lexeme.describe? found
  | afterKernel found => "unexpected " ++ Lexeme.describe? found ++ " after the kernel function"
  | expectedOf found => "expected 'of' in for loop, found " ++ Lexeme.describe? found
  | expectedExpression found => "expected expression, found " ++ Lexeme.describe? found
  | nestingTooDeep => "nesting depth exceeded (maximum 256 levels)"
  | severalDeclarators => "multiple declarators in one statement are not supported"
  | chainedAssignment => "chained assignment is not supported"
  | commaExpression => "comma expressions are not supported"

def help? : Fault → Option String
  | openComment => some "close the comment with `*/`"
  | stringLiteral => some "kernels operate on numbers, vectors, matrices and fields"
  | strayOctet _ => some "this character is not part of the kernel language"
  | expectedKernel _ =>
    some "a kernel is written as `(args) => \x7b ... \x7d` or `function name(args) \x7b ... \x7d`"
  | expectedOf _ =>
    some "loops are written `for (let i of range(n))` or `for (let I of ndrange(n, m))`"
  | expectedExpression _ => some "expressions include numbers, names, calls, arrays and operators"
  | nestingTooDeep => some "extract deeply nested code into helper functions"
  | severalDeclarators => some "declare each variable with its own `let`"
  | chainedAssignment => some "split it into separate assignments"
  | commaExpression => some "build vectors with array literals: `[a, b]`"
  | _ => none

end Fault

structure Complaint where
  fault : Fault
  span : Span
  deriving DecidableEq, Repr

def Complaint.diagnostic (c : Complaint) : Diagnostic :=
  { message := c.fault.message, span := c.span, help := c.fault.help? }

end ArrayKernel.Surface
