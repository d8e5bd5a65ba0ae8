import ArrayKernel.Lowering.Loop

/-!
Lowering statements. A statement changes the scope of the statements after it, so lowering gives the
scope back.
-/

namespace ArrayKernel.Lowering

open IR Surface

/-- Leaves or continues the innermost loop, if it is one that can be left. -/
def loopControl (c : LoopControl) (span : Span) : Lower Unit := do
  let word := match c with
    | .break_ => "break"
    | .continue_ => "continue"
  let refuse (message : String) : Lower Unit := failAt span (.invalidControlFlow message)
  match (← get).loops.head?, c with
  | some .serial, _ | some .parallel, .continue_ => discard <| emit (.loopControl c)
  | some .parallel, .break_ => refuse "`break` cannot leave a parallel loop"
  | some .static, _ => refuse s!"`{word}` inside a static loop"
  | some .function, _ | none, _ => refuse s!"`{word}` outside of a loop"

/-- The read-modify-write that a compound assignment performs on a scalar. -/
def atomicOf? : AssignOp → Option AtomicKind
  | .add => some .add
  | .sub => some .sub
  | .bitAnd => some .and
  | .bitOr => some .or
  | .bitXor => some .xor
  | _ => none

def lowerAssign (ctx : Context) (scope : Scope) (op : AssignOp) (place value : Expr) (span : Span) :
    Lower Unit := do
  match ← lowerExpr ctx scope place with
  | .place target =>
    let rhs ← lowerExpr ctx scope value
    match op.binary?, atomicOf? op, target.ty.isScalar with
    | none, _, _ => store target rhs span
    | some _, some kind, true => discard <| atomic target kind rhs span
    | some bin, _, _ =>
      let current ← load target place.span
      let rhs ← rvalue rhs value.span
      let (o, ty) ← binary bin current rhs span
      store target (.value o ty) span
  | other => failAt place.span (.invalidAssignment s!"a {other.kindName}")

def declareFunction (ctx : Context) (scope : Scope) (r : Routine) (span : Span) : Lower Scope :=
  match r.name with
  | some n => pure (scope.insert n.text (.function { name := n.text, routine := r, origin := ctx.origin }))
  | none => failAt span (.unsupportedSyntax "anonymous function declaration")

/-- Two branches. A constant condition chooses one of them at once. -/
def lowerBranches (c : Operand) (yes no : Lower Scope) : Lower Unit :=
  match c.const? with
  | some l => discard <| if l.truthy then yes else no
  | none => do
    let (yesBody, _) ← capture yes
    let (noBody, _) ← capture no
    push (.ifElse (← freshId) c yesBody noBody)

/-- A loop with a condition. If the condition is constant and false, it is left out. -/
def lowerWhile (cond : Lower Operand) (body : Lower Scope) : Lower Unit := do
  let (condBody, c) ← capture cond
  if c.const?.any (!·.truthy) then leaveOut condBody
  else
    let (stmts, _) ← capture (inLoop .serial body)
    push (.while_ (← freshId) condBody c stmts)

mutual

def lowerStmt (ctx : Context) (scope : Scope) : Surface.Stmt → Lower Scope
  | .decl span _ name none =>
    failAt span (.invalidAssignment s!"`{name.text}` declared without an initializer")
  | .decl _ kind name (some init) => do
    let l ← lowerExpr ctx scope init
    return scope.insert name.text (← bindDecl kind name.text init.span l)
  | .function span r => declareFunction ctx scope r span
  | .ifElse _ cond yes none => do
    lowerBranches (← lowerCondition ctx scope cond) (lowerStmt ctx scope yes) (pure scope)
    return scope
  | .ifElse _ cond yes (some no) => do
    lowerBranches (← lowerCondition ctx scope cond) (lowerStmt ctx scope yes) (lowerStmt ctx scope no)
    return scope
  | .forOf span binding iter body => do
    let it ← Iteration.ofExpr iter
    if it.unrolled then unroll ctx scope binding it span fun inner => lowerStmt ctx inner body
    else serialFor ctx scope binding it fun inner => lowerStmt ctx inner body
    return scope
  | .while_ _ cond body => do
    lowerWhile (lowerCondition ctx scope cond) (lowerStmt ctx scope body)
    return scope
  | .break_ span => do
    loopControl .break_ span
    return scope
  | .continue_ span => do
    loopControl .continue_ span
    return scope
  | .return_ span _ =>
    failAt span (.invalidControlFlow "`return` is only allowed as the last statement of a kernel or function")
  | .block _ body => do
    let _ ← lowerStmts ctx scope body
    return scope
  | .assign span op place value => do
    lowerAssign ctx scope op place value span
    return scope
  | .expr _ e => do
    let _ ← lowerExpr ctx scope e
    return scope
  | .empty _ => pure scope

def lowerStmts (ctx : Context) (scope : Scope) : List Surface.Stmt → Lower Scope
  | [] => pure scope
  | s :: ss => do lowerStmts ctx (← lowerStmt ctx scope s) ss

end

/-- The body of a function: a `return` at its end gives the value. -/
def lowerBody (ctx : Context) (scope : Scope) : List Surface.Stmt → Lower Lowered
  | [] => pure .void
  | [.return_ _ none] => pure .void
  | [.return_ _ (some e)] => lowerExpr ctx scope e
  | s :: ss => do lowerBody ctx (← lowerStmt ctx scope s) ss

end ArrayKernel.Lowering
