import ArrayKernel.Lowering.Lowered

/-!
Conversions and operators on values. Operations on constants are folded.
-/

namespace ArrayKernel.Lowering

open IR Surface

abbrev TypedOperand := Operand × Ty

def castScalar (o : Operand) (source target : Scalar) : Lower Operand :=
  if source = target then pure o
  else match o.const? with
    | some l => pure (.const (l.cast target))
    | none => emitValue (.unary (.cast target) o (.scalar target))

/-- Converts a value to a type: components are cast, and a scalar spreads over a vector or matrix.
-/
def coerce (o : Operand) (source target : Ty) (span : Span) : Lower Operand :=
  if source = target then pure o
  else match source, target with
    | .scalar s, .scalar t => castScalar o s t
    | .scalar s, .vector t n => do
      let x ← castScalar o s t
      emitValue (.compose (List.replicate n.toNat x) target)
    | .scalar s, .matrix r c => do
      let x ← castScalar o s .f32
      emitValue (.compose (List.replicate (r.toNat * c.toNat) x) target)
    | .vector _ n, .vector t m =>
      if n = m then emitValue (.unary (.cast t) o target)
      else failAt span (.shapeMismatch target source)
    | _, _ => failAt span (.shapeMismatch target source)

/-- The value of an operator whose operands are scalar constants, if it has one. -/
def folded (op : BinOp) (l r : Operand) (operandTy ty : Ty) (span : Span) :
    Lower (Option Literal) :=
  match l, r, operandTy, ty with
  | .const a, .const b, .scalar s, .scalar s' =>
    match Fold.binary op a b s s' with
    | .ok v => pure v
    | .error e => failAt span (.overflow e)
  | _, _, _, _ => pure none

theorem folded_const (op : BinOp) (a b : Literal) (s s' : Scalar) (span : Span) :
    folded op (.const a) (.const b) (.scalar s) (.scalar s') span =
      match Fold.binary op a b s s' with
      | .ok v => pure v
      | .error e => failAt span (.overflow e) := rfl

@[simp] theorem folded_stmt_left (op : BinOp) (i : StmtId) (r : Operand) (operandTy ty : Ty)
    (span : Span) : folded op (.stmt i) r operandTy ty span = pure none := rfl

@[simp] theorem folded_stmt_right (op : BinOp) (l : Operand) (i : StmtId) (operandTy ty : Ty)
    (span : Span) : folded op l (.stmt i) operandTy ty span = pure none := by
  cases l <;> rfl

def binary (op : BinOp) (lhs rhs : TypedOperand) (span : Span) : Lower TypedOperand := do
  let t ← typed span (op.typing lhs.2 rhs.2)
  if op = .matMul then
    let l ← coerce lhs.1 lhs.2 (lhs.2.withScalar .f32) span
    let r ← coerce rhs.1 rhs.2 (rhs.2.withScalar .f32) span
    return (← emitValue (.binary op l r t.operand t.result), t.result)
  else
    let l ← coerce lhs.1 lhs.2 t.operand span
    let r ← coerce rhs.1 rhs.2 t.operand span
    match ← folded op l r t.operand t.result span with
    | some v => return (.const v, t.result)
    | none => return (← emitValue (.binary op l r t.operand t.result), t.result)

def unaryOp (op : UnaryOp) (o : Operand) (ty : Ty) : Lower Operand :=
  match ty, o with
  | .scalar _, .const l =>
    match Fold.unary op l with
    | some v => pure (.const v)
    | none => emitValue (.unary op o ty)
  | _, _ => emitValue (.unary op o ty)

def unary (op : UnOp) (x : TypedOperand) (span : Span) : Lower TypedOperand := do
  let ty ← typed span (op.typing x.2)
  match op with
  | .plus => return (x.1, ty)
  | .neg => return (← unaryOp .neg x.1 ty, ty)
  | .not => return (← unaryOp .not x.1 ty, ty)
  | .bitNot => return (← unaryOp .bitNot x.1 ty, ty)

def isInt (v : Int32) (o : Operand) : Bool := o = .const (.i32 v)

/-- Integer arithmetic on addresses and bounds. Adding zero and multiplying by one emit nothing. -/
def intBinary (op : BinOp) (a b : Operand) : Lower Operand := do
  match ← folded op a b .i32 .i32 CompileError.nowhere with
  | some v => return .const v
  | none =>
    if op = .add && isInt 0 a then return b
    else if op = .add && isInt 0 b then return a
    else if op = .mul && isInt 1 b then return a
    else if op = .mul && isInt 1 a then return b
    else emitValue (.binary op a b .i32 .i32)

theorem intBinary_const {op : BinOp} {x y v : Literal}
    (h : Fold.binary op x y .i32 .i32 = .ok (some v)) :
    intBinary op (.const x) (.const y) = pure (.const v) := by
  simp only [intBinary, folded_const, h, pure_bind]

def extract (o : Operand) (ty : Ty) (indices : List Operand) : Lower TypedOperand := do
  let out := match ty, indices with
    | .matrix _ c, [_] => .vector .f32 c
    | _, _ => ty.component
  return (← emitValue (.extract o indices out), out)

def components (o : Operand) (ty : Ty) : Lower (List Operand) :=
  match ty with
  | .scalar _ => pure [o]
  | .vector _ n => (List.range n.toNat).mapM fun (i : Nat) => return (← extract o ty [.int i]).1
  | .matrix r c =>
    (List.range r.toNat).flatMapM fun (i : Nat) =>
      (List.range c.toNat).mapM fun (j : Nat) => return (← extract o ty [.int i, .int j]).1
  | .struct _ => pure []

end ArrayKernel.Lowering
