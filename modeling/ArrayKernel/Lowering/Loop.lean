import ArrayKernel.Lowering.Expr

/-!
The iteration spaces of loops, and the three ways to run through them: unrolled, in one thread, and
spread over the threads of the device. What the body does is a parameter.
-/

namespace ArrayKernel.Lowering

open IR Surface

attribute [local instance (high)] instPowNat

inductive Space where
  /-- From zero, or from a first bound, up to a last bound. -/
  | range (bounds : List Expr)
  /-- The multi-indices below the given extents, the last component running fastest. -/
  | grid (extents : List Expr)

structure Iteration where
  unrolled : Bool
  space : Space
  span : Span

namespace Iteration

def callOf? : Expr → Option (String × List Expr)
  | .call _ callee args => callee.path?.map fun p => (".".intercalate p, args)
  | _ => none

def spaceOf (path : String) (args : List Expr) (span : Span) : Option (Lower Space) :=
  let within (name : String) (most expected : Nat) (space : Space) : Lower Space :=
    if args.isEmpty || most < args.length then failAt span (.arityMismatch name expected args.length)
    else pure space
  match path with
  | "range" | "ti.range" => some (within "range" 2 2 (.range args))
  | "ndrange" | "ti.ndrange" => some (within "ndrange" 4 (max 1 (min 4 args.length)) (.grid args))
  | _ => none

def ofExpr (e : Expr) : Lower Iteration :=
  let unsupported : Lower Iteration :=
    failAt e.span (.unsupportedSyntax s!"for-of over a {e.kindName}; expected range() or ndrange()")
  let finish (unrolled : Bool) (call? : Option (String × List Expr)) : Lower Iteration :=
    match call?.bind fun (path, args) => spaceOf path args e.span with
    | some space => return { unrolled, space := ← space, span := e.span }
    | none => unsupported
  match callOf? e with
  | some ("static", [inner]) | some ("ti.static", [inner]) => finish true (callOf? inner)
  | other => finish false other

end Iteration

def bindingHint : Binding → String
  | .name n => hintOf n.text
  | .names ns => hintOf ("_".intercalate (ns.map Name.text))

def indexValueOf : Operand → Value
  | .const l => .number l
  | o => .bound o .i32

/-- Binds the variables of a loop to the components of the index. -/
def bindIndex (binding : Binding) (parts : List Operand) (scope : Scope) (span : Span) :
    Lower Scope :=
  match binding with
  | .name n =>
    match parts with
    | [p] => pure (scope.insert n.text (indexValueOf p))
    | _ => do
      let ty ← typed span (Ty.ofVector .i32 parts.length)
      match parts.mapM Operand.const? with
      | some ls => return scope.insert n.text (.array ls ty)
      | none => return scope.insert n.text (.bound (← emitValue (.compose parts ty)) ty)
  | .names ns =>
    if ns.length ≠ parts.length then failAt span (.arityMismatch "loop index" parts.length ns.length)
    else pure ((ns.zip parts).foldl (fun s (n, p) => s.insert n.text (indexValueOf p)) scope)

/-! ## Unrolled loops -/

/-- The number of integers from one bound up to another, in 64-bit arithmetic. -/
def extent (bounds : Int × Int) : Nat := ((bounds.2 - bounds.1).bmod (2 ^ (64 : Nat))).toNat

def iterations (bounds : List (Int × Int)) : Nat :=
  min ((bounds.map extent).foldl (· * ·) 1) (2 ^ (64 : Nat) - 1)

/-- The multi-index at a flat position, and the quotient that is left over. The last component runs
fastest. -/
def indexAt : List (Int × Int) → Nat → List Int × Nat
  | [], flat => ([], flat)
  | b :: bs, flat =>
    let (is, rest) := indexAt bs flat
    let n := max (extent b) 1
    ((b.1 + (rest % n : Nat)) :: is, rest / n)

def staticBounds (ctx : Context) (scope : Scope) (space : Space) : Lower (List (Int × Int)) := do
  let const := lowerIntConst ctx scope "static loop bound"
  match space with
  | .range [last] => return [(0, ← const last)]
  | .range [first, last] =>
    let b ← const first
    return [(b, ← const last)]
  | .range _ => return []
  | .grid extents => return (← extents.mapM const).map fun e => (0, e)

/-- Runs the body once for every index, with the index as a constant. -/
def unroll (ctx : Context) (scope : Scope) (binding : Binding) (it : Iteration) (span : Span)
    (body : Scope → Lower Scope) : Lower Unit := do
  let bounds ← staticBounds ctx scope it.space
  let count := iterations bounds
  if ctx.settings.unrollLimit < count then failAt span (.unrollLimit count ctx.settings.unrollLimit)
  else
    (List.range count).forM fun flat => do
      let parts := (indexAt bounds flat).1.map Operand.int
      let inner ← bindIndex binding parts scope it.span
      discard <| inLoop .static (body inner)

/-! ## Loops on the device -/

/-- The bounds of a loop on the device, and the extents of its multi-index. -/
def loopBounds (ctx : Context) (scope : Scope) (space : Space) :
    Lower (Operand × Operand × List Operand) := do
  let bound (e : Expr) : Lower Operand := do intOperand (← lowerExpr ctx scope e) e.span
  match space with
  | .range bounds =>
    match ← bounds.mapM bound with
    | [last] => return (.int 0, last, [])
    | [first, last] => return (first, last, [])
    | _ => return (.int 0, .int 0, [])
  | .grid extents =>
    let dims ← extents.mapM bound
    let total ← dims.foldlM (intBinary .mul) (.int 1)
    return (.int 0, total, dims)

/-- The components of a flat index, given the extents after the first, and the quotient that is left
over. -/
def unflattenTail (flat : Operand) : List Operand → Lower (List Operand × Operand)
  | [] => pure ([], flat)
  | dim :: dims => do
    let (parts, rest) ← unflattenTail flat dims
    let part ← intBinary .mod rest dim
    return (part :: parts, ← intBinary .floorDiv rest dim)

def unflatten (flat : Operand) : List Operand → Lower (List Operand)
  | [] => pure [flat]
  | _ :: dims => do
    let (parts, rest) ← unflattenTail flat dims
    return rest :: parts

def loopBody (kind : LoopKind) (scope : Scope) (binding : Binding) (it : Iteration) (index : StmtId)
    (dims : List Operand) (body : Scope → Lower Scope) : Lower (List IR.Stmt) := do
  let (stmts, _) ← capture <| inLoop kind do
    let parts ← unflatten (.stmt index) dims
    body (← bindIndex binding parts scope it.span)
  return stmts

def serialFor (ctx : Context) (scope : Scope) (binding : Binding) (it : Iteration)
    (body : Scope → Lower Scope) : Lower Unit := do
  let (first, last, dims) ← loopBounds ctx scope it.space
  let index ← freshId
  let stmts ← loopBody .serial scope binding it index dims body
  push (.rangeFor index first last stmts (bindingHint binding))

/-- The iterations between two bounds, if both are constants, as many as 32 bits hold. -/
def constThreads? (first last : Operand) : Option Nat := do
  let b ← first.const?.bind Literal.toInt?
  let e ← last.const?.bind Literal.toInt?
  return min (e - b).toNat (2 ^ (32 : Nat) - 1)

/-- A loop whose iterations are spread over threads: a task of its own. -/
def parallelFor (ctx : Context) (scope : Scope) (binding : Binding) (it : Iteration)
    (body : Scope → Lower Scope) : Lower Unit := do
  flushSerial
  let (prologue, first, last, dims) ← capture (loopBounds ctx scope it.space)
  let index ← freshId
  let stmts ← loopBody .parallel scope binding it index dims body
  addTask
    { loop := some
        { prologue, first, last, index, hint := bindingHint binding, threads := constThreads? first last }
      body := stmts }

end ArrayKernel.Lowering
