import ArrayKernel.Number.Binary32
import ArrayKernel.Text.Blank
import ArrayKernel.Typing.Rules

/-!
The built-in operations that kernels can call by name, bare or after `ti.` or `Math.`.
-/

namespace ArrayKernel

open Surface

inductive AtomicKind where
  | add | sub | min | max | and | or | xor
  deriving DecidableEq, Repr, Inhabited

namespace AtomicKind

def tag : AtomicKind → String
  | add => "Add"
  | sub => "Sub"
  | min => "Min"
  | max => "Max"
  | and => "And"
  | or => "Or"
  | xor => "Xor"

def shaderName (k : AtomicKind) : String := "atomic" ++ k.tag

end AtomicKind

inductive IntrinsicKind where
  | float
  | same
  | sign
  | dot
  | length
  | normalize
  | cross
  | transpose
  | determinant
  | normSqr
  | sum
  | outerProduct
  | concat
  | matmul
  | cast (s : Scalar)
  | bitcast (s : Scalar)
  | atomic (k : AtomicKind)
  | random
  | textureLoad
  | textureStore
  | textureSample
  | static
  deriving DecidableEq, Repr

/-- A built-in operation. Argument `i` goes where the template has `i` in braces. -/
structure Intrinsic where
  name : String
  arity : Nat
  kind : IntrinsicKind
  template : String := ""
  deriving DecidableEq, Repr

namespace Intrinsic

def hole (i : Nat) : String := "\x7b" ++ toString i ++ "\x7d"

def calling (callee : String) (args : List Nat) : String :=
  callee ++ "(" ++ ", ".intercalate (args.map hole) ++ ")"

/-- An operation that a shader function performs on the same arguments. -/
def direct (name : String) (arity : Nat) (kind : IntrinsicKind) (callee : String := name) :
    Intrinsic :=
  { name, arity, kind, template := calling callee (List.range arity) }

def atomics (k : AtomicKind) (snake : String) : List Intrinsic :=
  [{ name := "atomic" ++ k.tag, arity := 2, kind := .atomic k },
   { name := "atomic_" ++ snake, arity := 2, kind := .atomic k }]

def table : List Intrinsic :=
  (["sin", "cos", "tan", "asin", "acos", "atan", "tanh", "exp", "log", "sqrt", "floor", "ceil", "round",
    "fract"].map (direct · 1 .float))
  ++ ["atan2", "pow", "step"].map (direct · 2 .float)
  ++ [direct "rsqrt" 1 .float "inverseSqrt",
      direct "mix" 3 .float,
      direct "abs" 1 .same,
      direct "max" 2 .same,
      direct "min" 2 .same,
      direct "clamp" 3 .same,
      direct "sign" 1 .sign,
      direct "sgn" 1 .sign "sign",
      direct "i32" 1 (.cast .i32),
      direct "u32" 1 (.cast .u32),
      direct "f32" 1 (.cast .f32),
      direct "bitcast_i32" 1 (.bitcast .i32) "bitcast<i32>",
      direct "bitcast_u32" 1 (.bitcast .u32) "bitcast<u32>",
      direct "bitcast_f32" 1 (.bitcast .f32) "bitcast<f32>",
      direct "dot" 2 .dot,
      direct "cross" 2 .cross,
      direct "length" 1 .length,
      direct "norm" 1 .length "length",
      direct "normalize" 1 .normalize,
      direct "normalized" 1 .normalize "normalize",
      { name := "norm_sqr", arity := 1, kind := .normSqr, template := calling "dot" [0, 0] },
      direct "transpose" 1 .transpose,
      direct "determinant" 1 .determinant,
      { name := "matmul", arity := 2, kind := .matmul },
      { name := "outer_product", arity := 2, kind := .outerProduct },
      { name := "sum", arity := 1, kind := .sum },
      { name := "concat", arity := 2, kind := .concat }]
  ++ atomics .add "add" ++ atomics .sub "sub" ++ atomics .min "min" ++ atomics .max "max"
  ++ atomics .and "and" ++ atomics .or "or" ++ atomics .xor "xor"
  ++ [{ name := "random", arity := 0, kind := .random },
      { name := "textureLoad", arity := 2, kind := .textureLoad },
      { name := "textureStore", arity := 3, kind := .textureStore },
      { name := "textureSample", arity := 2, kind := .textureSample },
      { name := "static", arity := 1, kind := .static }]

def bareName (libraries : List String) (name : String) : String :=
  match libraries.findSome? fun l => Text.afterStart? l.toList name.toList with
  | some rest => String.ofList rest
  | none => name

def find? (name : String) : Option Intrinsic :=
  let bare := bareName ["ti.", "Math."] name
  table.find? (·.name == bare)

def constant? : String → Option Number.Binary32
  | "Math.PI" | "ti.PI" => some ⟨0x40490FDB⟩
  | "Math.E" | "ti.E" => some ⟨0x402DF854⟩
  | _ => none

/-- The template with its arguments filled in, one after the other. -/
def render (i : Intrinsic) (args : List String) : String :=
  String.ofList <|
    args.zipIdx.foldl (fun out (arg, k) => Text.replaceAll (hole k).toList arg.toList out) i.template.toList

end Intrinsic

structure Signature where
  args : List Ty
  ret : Ty
  deriving DecidableEq, Repr

namespace Intrinsic

/-- The types of a call of the operation, for operations that stay calls. -/
def signature (i : Intrinsic) (args : List Ty) : Except TypeError Signature :=
  let invalid (t : Ty) : Except TypeError Signature := .error (.invalidOperand i.name t)
  let first := args.head?.getD .f32
  let second := (args.drop 1).head?.getD .f32
  match args.find? Ty.isStruct with
  | some bad => invalid bad
  | none =>
    match i.kind with
    | .float | .same | .sign => do
      let shape ← (args.drop 1).foldlM Ty.broadcast first
      if shape.isMatrix then invalid shape
      else
        let operand := if i.kind = .float then shape.withScalar .f32 else shape
        if i.kind = .sign && operand.scalar? = some .u32 then invalid operand
        else
          .ok { args := List.replicate args.length operand
                ret := if i.kind = .sign then operand.withScalar .i32 else operand }
    | .dot => do
      let shape ← first.broadcast second
      match shape with
      | .vector s _ => .ok { args := [shape, shape], ret := .scalar s }
      | _ => invalid shape
    | .normSqr =>
      match first with
      | .vector s _ => .ok { args := [first], ret := .scalar s }
      | _ => invalid first
    | .length | .normalize =>
      match first with
      | .vector _ n =>
        let operand := Ty.vector .f32 n
        .ok { args := [operand], ret := if i.kind = .length then .f32 else operand }
      | _ => invalid first
    | .cross => do
      let shape ← first.broadcast second
      match shape with
      | .vector _ .three => .ok { args := [.vector .f32 .three, .vector .f32 .three], ret := .vector .f32 .three }
      | _ => invalid shape
    | .transpose =>
      match first with
      | .matrix r c => .ok { args := [first], ret := .matrix c r }
      | _ => invalid first
    | .determinant =>
      match first with
      | .matrix r c => if r = c then .ok { args := [first], ret := .f32 } else invalid first
      | _ => invalid first
    | .cast s | .bitcast s =>
      if first.isMatrix then invalid first else .ok { args := [first], ret := first.withScalar s }
    | _ => invalid first

end Intrinsic

end ArrayKernel
