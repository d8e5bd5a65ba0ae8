import ArrayKernel.Intrinsic.Helper
import ArrayKernel.Lowering.Builtin
import ArrayKernel.Surface.Grammar
import ArrayKernel.Typing.Reading

/-!
Lowering expressions.

How calls of functions are expanded is a parameter, an `Inliner`, so that expressions are lowered by
recursion on their structure alone.
-/

namespace ArrayKernel.Lowering

open IR Surface

attribute [local instance (high)] instPowNat

/-- Expands a call: the function, its arguments, the receiver that `this` stands for, the scope of
the caller and the place of the call. -/
abbrev Inliner := FunctionValue → List Arg → Option Value → Scope → Span → Lower Lowered

structure Context where
  settings : CompilerSettings
  origin : Origin
  inline : Inliner

/-! ## Calls -/

def libraryFile : Nat := 1

def libraryFunction? (name : String) : Option FunctionValue :=
  (Helper.find? name).bind fun h =>
    match Routine.parse libraryFile h.source with
    | .ok r => some { name := h.name, routine := r, origin := .library h.name }
    | .error _ => none

inductive Callee where
  | function (f : FunctionValue) (receiver : Option Value)
  | intrinsic (i : Intrinsic)

namespace Callee

def ofLibrary? (name : String) : Option Callee :=
  ((libraryFunction? name).map (.function · none)).or ((Intrinsic.find? name).map .intrinsic)

/-- What a dotted path calls. The record that holds a function is its receiver. -/
def ofPath? (scope : Scope) (path : List String) : Option Callee :=
  match scope.resolve? path with
  | some (.function f) => some (.function f ((scope.resolve? path.dropLast).filter Value.isRecord))
  | _ =>
    let name := ".".intercalate path
    if scope.contains name then none else ofLibrary? name

def ofMethod? (scope : Scope) (name : String) : Option Callee :=
  match scope.get? name with
  | some (.function f) => some (.function f none)
  | _ => ofLibrary? name

def apply (c : Callee) (ctx : Context) (scope : Scope) (span : Span) (args : List Arg) :
    Lower Lowered :=
  match c with
  | function f receiver => ctx.inline f args receiver scope span
  | intrinsic i => builtin i args span

end Callee

def arrowFunction (ctx : Context) (r : Routine) : FunctionValue :=
  { name := "<arrow>", routine := r, origin := ctx.origin }

def isRange (path : String) : Bool :=
  path == "range" || path == "ti.range" || path == "ndrange" || path == "ti.ndrange"

def method? (receiver : Lowered) (name : String) : Option (FunctionValue × Value) :=
  match receiver with
  | .static (.record r) =>
    match r.get? name with
    | some (.function f) => some (f, .record r)
    | _ => none
  | _ => none

/-- A call of a member: of a method, or of a function that takes the base as its first argument. -/
def callMember (ctx : Context) (scope : Scope) (span baseSpan : Span) (name : Name)
    (base : Lower Lowered) (args : Lower (List Arg)) : Lower Lowered := do
  let receiver ← base
  match method? receiver name.text with
  | some (f, owner) => ctx.inline f (← args) (some owner) scope span
  | none =>
    let all := ⟨receiver, baseSpan⟩ :: (← args)
    match Callee.ofMethod? scope name.text with
    | some c => c.apply ctx scope span all
    | none => failAt name.span (.unknownField name.text receiver.kindName)

/-- A call. The base of a member callee is lowered only if the path as a whole calls nothing. -/
def call (ctx : Context) (scope : Scope) (span : Span) (callee : Expr) (base : Lower Lowered)
    (args : Lower (List Arg)) : Lower Lowered :=
  match callee with
  | .arrow _ r => do ctx.inline (arrowFunction ctx r) (← args) none scope span
  | _ =>
    match callee.path?.bind (Callee.ofPath? scope) with
    | some c => do c.apply ctx scope span (← args)
    | none =>
      match callee.path?.map (".".intercalate ·), callee with
      | some path, .member _ b name =>
        if isRange path then failAt span (.unsupportedSyntax s!"`{path}()` outside of a for-of loop")
        else callMember ctx scope span b.span name base args
      | none, .member _ b name => callMember ctx scope span b.span name base args
      | some path, _ =>
        if isRange path then failAt span (.unsupportedSyntax s!"`{path}()` outside of a for-of loop")
        else failAt callee.span (.unresolvedSymbol path)
      | none, _ => failAt callee.span (.unsupportedSyntax s!"calling a {callee.kindName}")

/-! ## Other forms -/

/-- The constant of an integer literal, in the first type that holds it. -/
def intLiteral (n : Nat) (span : Span) : Lower Lowered :=
  if n < 2 ^ (31 : Nat) then pure (.static (.number (.i32 (.ofNat n))))
  else if n < 2 ^ (32 : Nat) then pure (.static (.number (.u32 (.ofNat n))))
  else failAt span (.invalidType s!"integer literal {n} does not fit in 32 bits")

/-- What a name or path stands for, if the scope or the library has it. -/
def pathValue? (scope : Scope) (path : List String) : Option Value :=
  (scope.resolve? path).or ((Intrinsic.constant? (".".intercalate path)).map fun v => .number (.f32 v))

def named (v : Option Value) (name : String) (span : Span) : Lower Lowered :=
  match v with
  | some v => ofValue v
  | none => failAt span (.unresolvedSymbol name)

/-- A choice between two values. A constant condition chooses at once; otherwise both are evaluated
in branches of their own and meet in a slot. -/
def select (cond yes no : Lower Lowered) (condSpan yesSpan noSpan span : Span) : Lower Lowered := do
  let (c, cTy) ← rvalue (← cond) condSpan
  if !cTy.isScalar then failAt condSpan (.invalidOperand "?:" cTy.text)
  else match c.const? with
    | some l => if l.truthy then yes else no
    | none =>
      let (yesBody, a, aTy) ← capture do rvalue (← yes) yesSpan
      let (noBody, b, bTy) ← capture do rvalue (← no) noSpan
      let ty ← typed span (aTy.broadcast bTy)
      let slot ← emit (.alloca ty "select")
      let assign (o : Operand) (source : Ty) : Lower Unit := do
        let o ← coerce o source ty span
        discard <| emit (.localStore slot [] o)
      let (yesBody, _) ← captureInto yesBody.toArray (assign a aTy)
      let (noBody, _) ← captureInto noBody.toArray (assign b bTy)
      push (.ifElse (← freshId) c yesBody noBody)
      return .value (← emitValue (.localLoad slot [] ty)) ty

/-- What a member of an object literal holds: places are read at once. -/
def memberValue (l : Lowered) (span : Span) : Lower Lowered :=
  match l with
  | .place p => do
    match ← loadRecord? p with
    | some es => return .record es
    | none =>
      let (o, ty) ← load p span
      return .value o ty
  | other => pure other

mutual

def lowerExpr (ctx : Context) (scope : Scope) : Expr → Lower Lowered
  | .int span n => intLiteral n span
  | .float _ v => pure (.static (.number (.f32 v.toBinary32)))
  | .bool _ b => pure (.static (.number (.ofBool b)))
  | .var span name => named (scope.get? name) name span
  | .this span => named scope.receiver "this" span
  | .member span base name =>
    match (Expr.member span base name).path?.bind (pathValue? scope) with
    | some v => ofValue v
    | none => do member (← lowerExpr ctx scope base) name.text name.span
  | .index span base indices => do
    let b ← lowerExpr ctx scope base
    let is ← lowerIndices ctx scope indices
    index b is span
  | .call span (.member mspan base name) args =>
    call ctx scope span (.member mspan base name) (lowerExpr ctx scope base) (lowerArgs ctx scope args)
  | .call span callee args => call ctx scope span callee (pure .void) (lowerArgs ctx scope args)
  | .unary span op operand => do
    let x ← rvalue (← lowerExpr ctx scope operand) operand.span
    let (o, ty) ← unary op x span
    return .value o ty
  | .binary span op lhs rhs => do
    let l ← rvalue (← lowerExpr ctx scope lhs) lhs.span
    let r ← rvalue (← lowerExpr ctx scope rhs) rhs.span
    let (o, ty) ← binary op l r span
    return .value o ty
  | .conditional span cond yes no =>
    select (lowerExpr ctx scope cond) (lowerExpr ctx scope yes) (lowerExpr ctx scope no)
      cond.span yes.span no.span span
  | .array span items => do arrayOf (← lowerArgs ctx scope items) span
  | .object _ members => return .record (← lowerMembers ctx scope members)
  | .arrow _ r => pure (.static (.function (arrowFunction ctx r)))

def lowerArgs (ctx : Context) (scope : Scope) : List Expr → Lower (List Arg)
  | [] => pure []
  | e :: es => do
    let l ← lowerExpr ctx scope e
    return ⟨l, e.span⟩ :: (← lowerArgs ctx scope es)

def lowerIndices (ctx : Context) (scope : Scope) : List Expr → Lower (List Operand)
  | [] => pure []
  | e :: es => do
    let is ← indexOperands (← lowerExpr ctx scope e) e.span
    return is ++ (← lowerIndices ctx scope es)

def lowerMembers (ctx : Context) (scope : Scope) : List Member → Lower Entries
  | [] => pure .nil
  | .mk name e :: ms => do
    let l ← memberValue (← lowerExpr ctx scope e) e.span
    return .cons name.text l (← lowerMembers ctx scope ms)

end

/-- The whole number that an expression is known to be at compile time. -/
def lowerIntConst (ctx : Context) (scope : Scope) (what : String) (e : Expr) : Lower Int := do
  let l ← lowerExpr ctx scope e
  match l.static? with
  | some (.number c) =>
    match c.toInt? with
    | some v => return v
    | none => failAt e.span (.notConstant what)
  | _ => failAt e.span (.notConstant what)

def lowerCondition (ctx : Context) (scope : Scope) (e : Expr) : Lower Operand := do
  let (c, ty) ← rvalue (← lowerExpr ctx scope e) e.span
  if ty.isScalar then return c else failAt e.span (.invalidOperand "condition" ty.text)

end ArrayKernel.Lowering
