import ArrayKernel.IR.Fold
import ArrayKernel.Shader.Binding
import ArrayKernel.Surface.Diagnostic
import ArrayKernel.Typing.Rules

/-!
Why a kernel does not compile.
-/

namespace ArrayKernel

inductive Cause where
  | unsupportedSyntax (what : String)
  | unresolvedSymbol (name : String)
  | shapeMismatch (lhs rhs : Ty)
  | unknownField (name ty : String)
  | invalidOperand (op ty : String)
  | invalidType (message : String)
  | recursion (name : String)
  | notConstant (what : String)
  | arityMismatch (name : String) (expected found : Nat)
  | invalidAssignment (what : String)
  | invalidControlFlow (message : String)
  | unrollLimit (count limit : Nat)
  | inlineDepth (limit : Nat)
  | overflow (e : Overflow)
  deriving DecidableEq, Repr

namespace Cause

def message : Cause → String
  | unsupportedSyntax what => s!"{what} is not supported in kernels"
  | unresolvedSymbol name => s!"unresolved symbol `{name}`"
  | shapeMismatch l r => s!"shape mismatch between {l.text} and {r.text}"
  | unknownField name ty => s!"{ty} has no field `{name}`"
  | invalidOperand op ty => s!"operator `{op}` cannot be applied to {ty}"
  | invalidType m => s!"invalid type: {m}"
  | recursion name => s!"recursive call to `{name}`"
  | notConstant what => s!"{what} must be a compile-time constant"
  | arityMismatch name expected found => s!"`{name}` expects {expected} argument(s), found {found}"
  | invalidAssignment what => s!"cannot assign to {what}"
  | invalidControlFlow m => m
  | unrollLimit count limit => s!"static loop runs {count} iterations, more than the limit of {limit}"
  | inlineDepth limit => s!"function calls nest deeper than {limit}"
  | overflow .remainder => "attempt to calculate the remainder with overflow"

def help? : Cause → Option String
  | shapeMismatch .. => some "scalars broadcast to any shape; vectors and matrices must agree exactly"
  | notConstant _ =>
    some "only literals, scope constants and static loop indices are known at compile time"
  | unrollLimit .. => some "drop the static marker to emit a device loop"
  | _ => none

def notes : Cause → List String
  | recursion _ => ["helper functions are inlined, so recursion cannot terminate"]
  | _ => []

def ofTypeError : TypeError → Cause
  | .shapeMismatch l r => shapeMismatch l r
  | .unknownField n t => unknownField n t.text
  | .invalidOperand op t => invalidOperand op t.text
  | e@(.invalidSize ..) => invalidType e.message

end Cause

structure Refusal where
  cause : Cause
  span : Span
  deriving DecidableEq, Repr

inductive CompileError where
  | parse (diagnostics : List Diagnostic)
  | located (cause : Cause) (span : Span)
  | reflection (e : Shader.ReflectionError)
  deriving DecidableEq, Repr

namespace CompileError

def message : CompileError → String
  | parse _ => "kernel source does not parse"
  | located c _ => c.message
  | reflection e => s!"generated shader failed reflection: {e.message}"

def span? : CompileError → Option Span
  | parse ds => ds.head?.map (·.span)
  | located _ s => some s
  | reflection _ => none

def nowhere : Span := ⟨0, 0, 0⟩

def diagnostics (e : CompileError) : List Diagnostic :=
  match e with
  | parse ds => ds
  | located c s => [{ message := e.message, span := s, notes := c.notes, help := c.help? }]
  | reflection _ => [{ message := e.message, span := nowhere }]

end CompileError

end ArrayKernel
