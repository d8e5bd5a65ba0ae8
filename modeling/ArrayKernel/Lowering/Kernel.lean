import ArrayKernel.IR.Sharing
import ArrayKernel.Lowering.Stmt

/-!
Lowering a kernel: the expansion of functions, the split into tasks, and the parameters.
-/

namespace ArrayKernel.Lowering

open IR Surface

/-! ## Functions -/

/-- The scope of a function: what the host gave and the functions that the caller sees. -/
def calleeScope (globals caller : Scope) (receiver : Option Value) : Scope :=
  { table := caller.functions.foldl (fun t (k, v) => Scope.insertInto k v t) globals.table, receiver }

def bindArgs (scope : Scope) : List Surface.Param → List Arg → Lower Scope
  | p :: ps, a :: as => do
    let v ← bindArg p.name.text a.span a.lowered
    bindArgs (scope.insert p.name.text v) ps as
  | _, _ => pure scope

/-- An error in the text of another source points at the call instead. -/
def relocateFrom (site : Span) (e : Refusal) : Refusal :=
  if e.span.file ≠ site.file then { e with span := site } else e

/-- Expands calls that nest at most so much deeper. A function is never expanded inside its own
expansion. -/
def inliner (settings : CompilerSettings) (globals : Scope) (depth : Nat) : Inliner :=
  fun f args receiver caller span => do
    let params := f.routine.params
    if args.length ≠ params.length then
      failAt span (.arityMismatch f.name params.length args.length)
    else if (← get).inlining.contains f.identity then failAt span (.recursion f.name)
    else match depth with
      | 0 => failAt span (.inlineDepth settings.maxInlineDepth)
      | depth + 1 =>
        let scope ← bindArgs (calleeScope globals caller receiver) params args
        let ctx : Context := { settings, origin := f.origin, inline := inliner settings globals depth }
        mapError (relocateFrom span) <| inFunction f.identity <| inLoop .function <|
          lowerBody ctx scope f.routine.body

/-! ## Tasks -/

def lowerReturn (ctx : Context) (scope : Scope) (value : Option Expr) (span : Span) : Lower Unit :=
  match value with
  | none => pure ()
  | some e => do
    let (o, ty) ← rvalue (← lowerExpr ctx scope e) span
    let _ ← emit (.ret o ty)
    modify fun b => { b with ret := some ty }

mutual

/-- A statement outside of all device loops: a loop there is spread over threads. Only the last
statement of the kernel may return. -/
def lowerTop (ctx : Context) (scope : Scope) (last : Bool) : Surface.Stmt → Lower Scope
  | .forOf span binding iter body => do
    let it ← Iteration.ofExpr iter
    if it.unrolled then unroll ctx scope binding it span fun inner => lowerTop ctx inner false body
    else parallelFor ctx scope binding it fun inner => lowerStmt ctx inner body
    return scope
  | .block _ body => do
    let _ ← lowerTops ctx scope false body
    return scope
  | .return_ span value =>
    if last then do
      lowerReturn ctx scope value span
      return scope
    else lowerStmt ctx scope (.return_ span value)
  | s => lowerStmt ctx scope s

def lowerTops (ctx : Context) (scope : Scope) (body : Bool) : List Surface.Stmt → Lower Scope
  | [] => pure scope
  | s :: ss => do lowerTops ctx (← lowerTop ctx scope (body && ss.isEmpty) s) body ss

end

/-! ## Parameters -/

/-- Whether an ascription marks a parameter that is known at compile time. -/
def isTemplate (ascription : Option Name) : Bool :=
  ascription.any fun a => a.text == "template" || a.text == "ti.template"

/-- The type of a parameter: what its ascription says, else a float. -/
def paramTy : Option Name → Lower Ty
  | none => pure .f32
  | some a =>
    match Ty.read? a.text with
    | some ty => pure ty
    | none => failAt a.span (.invalidType s!"unknown parameter type `{a.text}`")

/-- Binds the parameters of a kernel, the first of them at the given word of the arguments. -/
def bindParams (templates : List (String × Value)) (scope : Scope) (word : Nat) :
    List Surface.Param → Lower (List IR.Param × Scope)
  | [] => pure ([], scope)
  | p :: ps => do
    let name := p.name.text
    if isTemplate p.ascription then
      match templates.lookup name with
      | some v => bindParams templates (scope.insert name v) word ps
      | none => failAt p.name.span (.notConstant s!"template parameter `{name}`")
    else
      let ty ← paramTy p.ascription
      let (rest, scope) ← bindParams templates (scope.insert name (.arg word ty)) (word + ty.size) ps
      return ({ name, ty } :: rest, scope)

/-- Lowers a kernel, with values for its template parameters and a way to expand calls. -/
def kernelVia (inline : Inliner) (r : Routine) (scope : Scope) (templates : List (String × Value))
    (settings : CompilerSettings) : Lower Kernel := do
  let (params, inner) ← bindParams templates scope 0 r.params
  let ctx : Context := { settings, origin := .kernel, inline }
  let _ ← lowerTops ctx inner true r.body
  flushSerial
  let b ← get
  return Kernel.shareSlots
    { name := (r.name.map Name.text).getD "kernel", params, ret := b.ret, tasks := b.tasks.toList,
      fields := b.fields, textures := b.textures }

def kernelOf (r : Routine) (scope : Scope) (templates : List (String × Value))
    (settings : CompilerSettings) : Lower Kernel :=
  kernelVia (inliner settings scope.globals settings.maxInlineDepth) r scope templates settings

def lower (r : Routine) (scope : Scope) (templates : List (String × Value))
    (settings : CompilerSettings) : Except CompileError Kernel :=
  match (kernelOf r scope templates settings).run {} with
  | .ok k _ => .ok k
  | .error e _ => .error (.located e.cause e.span)

end ArrayKernel.Lowering
