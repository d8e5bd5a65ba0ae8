import ArrayKernel.Surface.Operator
import ArrayKernel.Typing.Ty

/-!
Typing rules of operators. Scalars spread over any vector or matrix; two vectors or two matrices
must have the same shape. Comparisons and logical operators give `i32` zeros and ones; division and
power compute in `f32`.
-/

namespace ArrayKernel

open Surface

inductive TypeError where
  | shapeMismatch (lhs rhs : Ty)
  | unknownField (name : String) (ty : Ty)
  | invalidOperand (op : String) (ty : Ty)
  | invalidSize (what : String) (size : Nat)
  deriving DecidableEq, Repr

def TypeError.message : TypeError → String
  | shapeMismatch l r => s!"shape mismatch between {l.text} and {r.text}"
  | unknownField n t => s!"{t.text} has no field `{n}`"
  | invalidOperand op t => s!"operator `{op}` cannot be applied to {t.text}"
  | invalidSize what n => s!"{what} must have 2 to 4 components, found {n}"

namespace Ty

def ofVector (s : Scalar) (n : Nat) : Except TypeError Ty :=
  match Dim.ofNat? n with
  | some d => .ok (vector s d)
  | none => .error (.invalidSize "vector" n)

def ofMatrix (rows cols : Nat) : Except TypeError Ty :=
  match Dim.ofNat? rows, Dim.ofNat? cols with
  | some r, some c => .ok (matrix r c)
  | none, _ => .error (.invalidSize "matrix" rows)
  | some _, none => .error (.invalidSize "matrix" cols)

/-- A member of a structure: the number of components before it, and its type. -/
def member (t : Ty) (name : String) : Except TypeError (Nat × Ty) :=
  match t with
  | struct ms =>
    match ms.find? name with
    | some m => .ok m
    | none => .error (.unknownField name t)
  | _ => .error (.unknownField name t)

/-- The common shape of two operands, over the common component type. -/
def broadcast (a b : Ty) : Except TypeError Ty :=
  match a, b with
  | scalar s, scalar t => .ok (scalar (s.promote t))
  | scalar s, vector t n => .ok (vector (s.promote t) n)
  | vector s n, scalar t => .ok (vector (s.promote t) n)
  | vector s n, vector t m => if n = m then .ok (vector (s.promote t) n) else .error (.shapeMismatch a b)
  | scalar _, matrix r c => .ok (matrix r c)
  | matrix r c, scalar _ => .ok (matrix r c)
  | matrix r c, matrix r' c' =>
    if r = r' ∧ c = c' then .ok (matrix r c) else .error (.shapeMismatch a b)
  | _, _ => .error (.shapeMismatch a b)

/-- The product of matrices and vectors: the inner dimensions must agree. -/
def matmul (a b : Ty) : Except TypeError Ty :=
  match a, b with
  | matrix n k, matrix k' m => if k = k' then .ok (matrix n m) else .error (.shapeMismatch a b)
  | matrix n k, vector _ k' => if k = k' then .ok (vector .f32 n) else .error (.shapeMismatch a b)
  | vector _ k, matrix k' m => if k = k' then .ok (vector .f32 m) else .error (.shapeMismatch a b)
  | _, _ => .error (.shapeMismatch a b)

end Ty

/-- The types of an operator: both operands are converted to `operand` before it is applied. -/
structure BinaryTyping where
  operand : Ty
  result : Ty
  deriving DecidableEq, Repr

def Surface.BinOp.typing (op : BinOp) (a b : Ty) : Except TypeError BinaryTyping :=
  if op = .matMul then
    (a.matmul b).map fun t => ⟨a.withScalar .f32, t⟩
  else
    (a.broadcast b).bind fun shape =>
      let invalid (t : Ty) : TypeError := .invalidOperand op.symbol t
      if shape.isMatrix && (op.isComparison || op.isLogical || op.isBitwise || op == .floorDiv) then
        .error (invalid shape)
      else if op == .div || op == .pow then
        .ok ⟨shape.withScalar .f32, shape.withScalar .f32⟩
      else if op.isComparison || op.isLogical then
        .ok ⟨shape, shape.withScalar .i32⟩
      else if op.isBitwise && shape.scalar? == some .f32 then
        .error (invalid (if a.scalar? == some .f32 then a else b))
      else .ok ⟨shape, shape⟩

def Surface.UnOp.typing (op : UnOp) (t : Ty) : Except TypeError Ty :=
  let invalid : TypeError := .invalidOperand op.symbol t
  match t.scalar?, op with
  | none, _ => .error invalid
  | some _, .plus => .ok t
  | some s, .neg => if s = .u32 then .error invalid else .ok t
  | some _, .not => if t.isMatrix then .error invalid else .ok (t.withScalar .i32)
  | some s, .bitNot => if s.isFloat then .error invalid else .ok t

end ArrayKernel
