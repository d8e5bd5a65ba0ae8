import ArrayKernel.IR.Stmt

/-!
The text of shader expressions. Values of kernels are row by row; matrices of shaders are column by
column.
-/

namespace ArrayKernel.Shader

open IR Surface

def applied (f : String) (args : List String) : String := f ++ "(" ++ ", ".intercalate args ++ ")"

def zero : Ty → String
  | .scalar s => ((Literal.i32 0).cast s).shaderText
  | ty => applied ty.shaderText []

def wordScalar (ty : Ty) : Scalar := ty.scalar?.getD .i32

def decode (word : String) : Scalar → String
  | .i32 => word
  | s => s!"bitcast<{s.name}>({word})"

def encode (value : String) : Scalar → String
  | .i32 => value
  | _ => s!"bitcast<i32>({value})"

def componentOf (value : String) (ty : Ty) (k : Nat) : String :=
  match ty with
  | .vector .. => s!"{value}[{k}]"
  | .matrix _ c => s!"{value}[{k % c.toNat}][{k / c.toNat}]"
  | _ => value

/-- The components of a matrix column by column, from those row by row. -/
def byColumn {α : Type} (rows cols : Nat) (parts : List α) : List α :=
  (List.range cols).flatMap fun c => (List.range rows).filterMap fun r => parts[r * cols + c]?

def compose (ty : Ty) (parts : List String) : String :=
  match ty with
  | .scalar _ => parts.head?.getD (zero ty)
  | .vector .. => applied ty.shaderText parts
  | .matrix r c => applied ty.shaderText (byColumn r.toNat c.toNat parts)
  | .struct _ => zero ty

def matrixRow (value : String) (cols : Nat) (row : String) : String :=
  applied s!"vec{cols}<f32>" ((List.range cols).map fun c => s!"{value}[{c}][{row}]")

def perColumn (ty : Ty) (cols : Nat) (column : Nat → String) : String :=
  applied ty.shaderText ((List.range cols).map column)

def combine (kind : AtomicKind) (old value : String) : String :=
  match kind with
  | .add => s!"({old} + {value})"
  | .sub => s!"({old} - {value})"
  | .min => s!"min({old}, {value})"
  | .max => s!"max({old}, {value})"
  | .and => s!"({old} & {value})"
  | .or => s!"({old} | {value})"
  | .xor => s!"({old} ^ {value})"

structure Word where
  target : String
  atomic : Bool

namespace Word

def load (w : Word) : String := if w.atomic then s!"atomicLoad(&{w.target})" else w.target

def store (w : Word) (value : String) : String :=
  if w.atomic then s!"atomicStore(&{w.target}, {value});" else s!"{w.target} = {value};"

end Word

def readWords (ty : Ty) (word : Nat → Word) : String :=
  compose ty ((List.range ty.size).map fun k => decode (word k).load (wordScalar ty))

def writeWords (ty : Ty) (value : String) (word : Nat → Word) : List String :=
  (List.range ty.size).map fun k => (word k).store (encode (componentOf value ty k) (wordScalar ty))

/-- Whether a binary operation needs the function that divides toward the floor. -/
def needsFloorDiv (op : BinOp) (operandTy : Ty) : Bool :=
  op = .floorDiv && wordScalar operandTy = .i32

def binaryExpr (op : BinOp) (a b : String) (operandTy ty : Ty) : String :=
  let sym := op.symbol
  if op = .matMul then s!"({a} * {b})"
  else if op.isComparison then applied ty.shaderText [s!"{a} {sym} {b}"]
  else if op.isLogical then
    let z := zero operandTy
    let joiner := match op, operandTy.isScalar with
      | .logicalAnd, true => "&&"
      | .logicalAnd, false => "&"
      | _, true => "||"
      | _, false => "|"
    applied ty.shaderText [s!"({a} != {z}) {joiner} ({b} != {z})"]
  else match op, operandTy with
    | .shl, .vector _ n | .shr, .vector _ n =>
      s!"({a} {sym} (vec{n.toNat}<u32>({b}) & vec{n.toNat}<u32>(31u)))"
    | .shl, _ | .shr, _ => s!"({a} {sym} (u32({b}) & 31u))"
    | .pow, .matrix _ c => perColumn ty c.toNat fun k => s!"pow({a}[{k}], {b}[{k}])"
    | .pow, _ => s!"pow({a}, {b})"
    | .mul, .matrix _ c | .div, .matrix _ c | .mod, .matrix _ c =>
      perColumn ty c.toNat fun k => s!"({a}[{k}] {sym} {b}[{k}])"
    | .floorDiv, _ =>
      match wordScalar operandTy, operandTy with
      | .f32, _ => s!"floor({a} / {b})"
      | .u32, _ => s!"({a} / {b})"
      | .i32, .vector _ n =>
        applied ty.shaderText ((List.range n.toNat).map fun k => s!"floor_div_i32({a}[{k}], {b}[{k}])")
      | .i32, _ => s!"floor_div_i32({a}, {b})"
    | _, _ => s!"({a} {sym} {b})"

def unaryExpr (op : UnaryOp) (a : String) (operandTy ty : Ty) : String :=
  match op, ty with
  | .neg, .matrix _ c => perColumn ty c.toNat fun k => s!"-{a}[{k}]"
  | .neg, _ => s!"(-({a}))"
  | .not, _ =>
    let z := zero operandTy
    applied ty.shaderText [s!"{a} == {z}"]
  | .bitNot, _ => s!"(~{a})"
  | .cast _, _ => applied ty.shaderText [a]
  | .bitcast _, _ => s!"bitcast<{ty.shaderText}>({a})"

end ArrayKernel.Shader
