import ArrayKernel.Lowering.Selection

/-!
Calls of built-in operations.
-/

namespace ArrayKernel.Lowering

open IR Surface

def sumOf (i : Intrinsic) (x : TypedOperand) (span : Span) : Lower Lowered := do
  let elem := x.2.component
  match ← components x.1 x.2 with
  | [] => failAt span (.invalidOperand i.name x.2.text)
  | first :: rest =>
    let total ← rest.foldlM (fun acc part => return (← binary .add (acc, elem) (part, elem) span).1) first
    return .value total elem

/-- The products of every component of one vector with every component of another. -/
def outerProduct (i : Intrinsic) (x y : TypedOperand) (span : Span) : Lower Lowered :=
  match x.2, y.2 with
  | .vector _ n, .vector _ m => do
    let ty ← typed span (Ty.ofMatrix n.toNat m.toNat)
    let a ← coerce x.1 x.2 (.vector .f32 n) span
    let b ← coerce y.1 y.2 (.vector .f32 m) span
    let rows ← components a (.vector .f32 n)
    let cols ← components b (.vector .f32 m)
    let parts ← rows.flatMapM fun r => cols.mapM fun c => return (← binary .mul (r, .f32) (c, .f32) span).1
    return .value (← emitValue (.compose parts ty)) ty
  | _, _ => failAt span (.invalidOperand i.name (if x.2.isVector then y.2 else x.2).text)

def concat (i : Intrinsic) (xs : List TypedOperand) (span : Span) : Lower Lowered := do
  let scalars ← xs.mapM fun (_, ty) =>
    match ty with
    | .scalar s | .vector s _ => pure s
    | _ => failAt span (.invalidOperand i.name ty.text)
  let s := match scalars with
    | [] => .f32
    | s :: rest => rest.foldl Scalar.promote s
  let parts ← xs.mapM fun (o, ty) => do
    (← components o ty).mapM fun part => coerce part ty.component (.scalar s) span
  let parts := parts.flatten
  let ty ← typed span (Ty.ofVector s parts.length)
  return .value (← emitValue (.compose parts ty)) ty

def convert (i : Intrinsic) (op : UnaryOp) (x : TypedOperand) (span : Span) : Lower Lowered := do
  let sig ← typed span (i.signature [x.2])
  if sig.ret = x.2 then return .value x.1 x.2
  else return .value (← unaryOp op x.1 sig.ret) sig.ret

def callOf (i : Intrinsic) (xs : List TypedOperand) (span : Span) : Lower Lowered := do
  let sig ← typed span (i.signature (xs.map Prod.snd))
  let args ← (xs.zip sig.args).mapM fun ((o, ty), target) => coerce o ty target span
  return .value (← emitValue (.call i args sig.args sig.ret)) sig.ret

def mathOf (i : Intrinsic) (xs : List TypedOperand) (span : Span) : Lower Lowered :=
  match i.kind, xs with
  | .matmul, [x, y] => do
    let (o, ty) ← binary .matMul x y span
    return .value o ty
  | .sum, [x] => sumOf i x span
  | .outerProduct, [x, y] => outerProduct i x y span
  | .concat, _ => concat i xs span
  | .cast s, [x] => convert i (.cast s) x span
  | .bitcast s, [x] => convert i (.bitcast s) x span
  | _, _ => callOf i xs span

/-- The texture operation of an intrinsic, and the scalar of its coordinates. -/
def textureOp? : IntrinsicKind → Option (TextureOp × Scalar)
  | .textureLoad => some (.load, .i32)
  | .textureStore => some (.store, .i32)
  | .textureSample => some (.sample, .f32)
  | _ => none

/-- Access to a texel. Only storage textures are written, and only others are read. -/
def textureAccess (i : Intrinsic) (op : TextureOp) (coordScalar : Scalar) (tex coords : Arg)
    (value : Option Arg) : Lower Lowered :=
  match tex.lowered with
  | .static (.texture t) =>
    if t.storage ≠ (op == .store) then
      let kind := if t.storage then "storage" else "sampled"
      failAt tex.span (.invalidOperand i.name s!"{kind} texture `{t.name}`")
    else do
      let coordTy ←
        if t.rank = 1 then pure (.scalar coordScalar)
        else typed coords.span (Ty.ofVector coordScalar t.rank)
      let (c, cTy) ← rvalue coords.lowered coords.span
      let c ← coerce c cTy coordTy coords.span
      let texel := Ty.vector .f32 .four
      let stored ← match value with
        | some v => do
          let (o, ty) ← rvalue v.lowered v.span
          pure (some (← coerce o ty texel v.span))
        | none => pure none
      touchTexture t
      let id ← emit (.texture t.id op c stored texel)
      return if op = .store then .void else .value (.stmt id) texel
  | other => failAt tex.span (.invalidOperand i.name other.kindName)

def builtin (i : Intrinsic) (args : List Arg) (span : Span) : Lower Lowered :=
  if args.length ≠ i.arity then failAt span (.arityMismatch i.name i.arity args.length)
  else match i.kind, args with
    | .static, [a] =>
      match a.lowered.static? with
      | some v => pure (.static v)
      | none => failAt a.span (.notConstant "argument of `static()`")
    | .atomic kind, [target, value] =>
      match target.lowered with
      | .place p => do
        let (old, ty) ← atomic p kind value.lowered span
        return .value old ty
      | other => failAt target.span (.invalidAssignment s!"a {other.kindName} with `{i.name}`")
    | .random, _ => return .value (← emitValue (.random .f32)) .f32
    | kind, _ =>
      match textureOp? kind, args with
      | some (op, s), tex :: coords :: rest => textureAccess i op s tex coords rest.head?
      | _, _ => do
        let xs ← args.mapM fun a => rvalue a.lowered a.span
        mathOf i xs span

end ArrayKernel.Lowering
