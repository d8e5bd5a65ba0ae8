import ArrayKernel.Shader.Address
import ArrayKernel.Shader.Binding
import ArrayKernel.Shader.Expression
import Std.Data.HashMap

/-!
The state that writing a shader works on.

Values of statements become `let` bindings named after the id of the statement; slots and loop
indices become variables whose name also holds a hint. Resources are bound in the order in which
they are first used.
-/

namespace ArrayKernel.Shader

open IR

inductive Slot where
  | variable (name : String) (ty : Ty)
  /-- In the buffer of shared slots, from a word on. -/
  | shared (offset : Nat) (ty : Ty)
  deriving Repr

/-- The fields that a task writes, and those of which it has atomic access to words. -/
structure FieldUsage where
  written : List Nat := []
  atomic : List Nat := []
  deriving Repr

namespace FieldUsage

/-- Takes note of one statement, given the fields of the addresses so far. -/
def step (acc : FieldUsage × List (StmtId × Nat)) (s : Stmt) : FieldUsage × List (StmtId × Nat) :=
  let (u, ptrs) := acc
  match s with
  | .op id (.globalPtr f _ _) => (u, (id, f) :: ptrs)
  | .op _ (.globalStore ptr _) =>
    match ptrs.lookup ptr with
    | some f => ({ u with written := f :: u.written }, ptrs)
    | none => (u, ptrs)
  | .op _ (.atomic (.global f _) _ _ _) =>
    ({ written := f :: u.written, atomic := f :: u.atomic }, ptrs)
  | _ => (u, ptrs)

def ofTask (t : Task) : FieldUsage := (t.statements.foldl step ({}, [])).1

end FieldUsage

structure Target where
  kernel : Kernel
  index : Nat
  usage : FieldUsage

structure Emitter where
  lines : Array String := #[]
  depth : Nat := 1
  values : Std.HashMap StmtId (String × Ty) := {}
  /-- The field and address of every pointer so far. -/
  ptrs : Std.HashMap StmtId (Nat × Address) := {}
  slots : Std.HashMap StmtId Slot := {}
  bindings : List Binding := []
  floorDiv : Bool := false
  random : Bool := false

abbrev Emit := ReaderT Target (StateM Emitter)

def indentation (depth : Nat) : String := String.ofList (List.replicate (4 * depth) ' ')

def line (text : String) : Emit Unit :=
  modify fun e => { e with lines := e.lines.push (indentation e.depth ++ text) }

def indented (m : Emit Unit) : Emit Unit := do
  modify fun e => { e with depth := e.depth + 1 }
  m
  modify fun e => { e with depth := e.depth - 1 }

/-! ## Resources -/

def fieldName (k : Kernel) (id : Nat) : String :=
  let hint := ((k.field? id).map fun f => hintOf f.name).getD ""
  if hint.isEmpty then s!"field_{id}" else s!"field_{id}_{hint}"

def variableOf (t : Target) : ResourceKind → String × Access
  | .field id => (fieldName t.kernel id, if t.usage.written.contains id then .readWrite else .read)
  | .args => ("args", .read)
  | .rets => ("rets", .readWrite)
  | .shared => ("global_tmps", .readWrite)
  | .texture id => (s!"tex_{id}", .read)
  | .storageTexture id => (s!"storage_tex_{id}", .write)
  | .sampler id => (s!"sampler_{id}", .read)

def resource (kind : ResourceKind) : Emit String := do
  let e ← get
  match e.bindings.find? (·.kind = kind) with
  | some b => return b.name
  | none =>
    let (name, access) := variableOf (← read) kind
    let b : Binding := { group := 0, binding := e.bindings.length, kind, access, name }
    set { e with bindings := e.bindings ++ [b] }
    return name

/-! ## Values -/

def valueName (id : StmtId) : String := s!"_{id}"

def varName (id : StmtId) (hint : String) : String :=
  if hint.isEmpty then valueName id else s!"_{id}_{hint}"

def operand (o : Operand) : Emit String := do
  match o with
  | .const l => return l.shaderText
  | .stmt id => return (((← get).values[id]?).map Prod.fst).getD (valueName id)

def indexText (o : Operand) : Emit String := do
  match o with
  | .const (.i32 v) => if 0 ≤ v then return toString v.toInt else operand o
  | .const (.u32 v) => return toString v.toNat
  | _ => operand o

def operandTy (o : Operand) : Emit Ty := do
  match o with
  | .const l => return l.ty
  | .stmt id => return (((← get).values[id]?).map Prod.snd).getD .i32

def condition (o : Operand) : Emit String := do
  match o with
  | .const l => return if l.truthy then "true" else "false"
  | _ =>
    let ty ← operandTy o
    let text ← operand o
    let z := zero ty
    let test := s!"{text} != {z}"
    return if ty.isScalar then test else applied "any" [test]

def bindValue (id : StmtId) (ty : Ty) (expr : String) : Emit Unit := do
  let name := valueName id
  line s!"let {name}: {ty.shaderText} = {expr};"
  modify fun e => { e with values := e.values.insert id (name, ty) }

def declareIndex (id : StmtId) (hint : String) : Emit String := do
  let name := varName id hint
  modify fun e => { e with values := e.values.insert id (name, .i32) }
  return name

end ArrayKernel.Shader
