import ArrayKernel.IR.Fold
import ArrayKernel.Intrinsic.Table
import ArrayKernel.Scope.Resource

/-!
The intermediate representation of kernels: tasks of typed statements with structured control flow.
Every statement has an id, and those that produce a value are referred to by it.
-/

namespace ArrayKernel.IR

open Surface

attribute [local instance (high)] Zero.ofOfNat0

abbrev StmtId := Nat

/-- What remains of a name in a variable of a shader: letters, digits and underscores, 24 at most.
-/
def hintOf (name : String) : String :=
  String.ofList ((name.toList.filter fun c => c.isAlphanum || c = '_').take 24)

/-- What a statement works on: the value of an earlier statement, or a constant. -/
inductive Operand where
  | stmt (id : StmtId)
  | const (l : Literal)
  deriving DecidableEq, Repr, Inhabited

namespace Operand

def const? : Operand → Option Literal
  | const l => some l
  | stmt _ => none

def int (v : Int) : Operand := const (.i32 (.ofInt v))

def text : Operand → String
  | stmt id => s!"%{id}"
  | const l => l.text

end Operand

inductive AtomicTarget where
  /-- A word of a field, at the address that a statement computed. -/
  | global (field : Nat) (ptr : StmtId)
  | local (slot : StmtId) (indices : List Operand)
  deriving DecidableEq, Repr

inductive TextureOp where
  | load | store | sample
  deriving DecidableEq, Repr

inductive LoopControl where
  | break_ | continue_
  deriving DecidableEq, Repr

inductive Op where
  | alloca (ty : Ty) (hint : String)
  /-- Reads a slot, or the part of it that the indices select. -/
  | localLoad (slot : StmtId) (indices : List Operand) (ty : Ty)
  | localStore (slot : StmtId) (indices : List Operand) (value : Operand)
  /-- The word address of an element of a field, some components in. -/
  | globalPtr (field : Nat) (indices : List Operand) (offset : Operand)
  | globalLoad (ptr : StmtId) (ty : Ty)
  | globalStore (ptr : StmtId) (value : Operand)
  | binary (op : BinOp) (lhs rhs : Operand) (operandTy ty : Ty)
  | unary (op : UnaryOp) (operand : Operand) (ty : Ty)
  /-- A vector or matrix of scalar components, row by row. -/
  | compose (parts : List Operand) (ty : Ty)
  /-- A component of a vector, or a row or component of a matrix. -/
  | extract (value : Operand) (indices : List Operand) (ty : Ty)
  | loopControl (c : LoopControl)
  /-- Read-modify-write; its value is the one before. -/
  | atomic (target : AtomicTarget) (kind : AtomicKind) (value : Operand) (ty : Ty)
  | call (intrinsic : Intrinsic) (args : List Operand) (argTys : List Ty) (ty : Ty)
  | texture (texture : Nat) (op : TextureOp) (coords : Operand) (value : Option Operand) (ty : Ty)
  | ret (value : Operand) (ty : Ty)
  | random (ty : Ty)
  /-- An argument of the kernel, by the word that it starts at. -/
  | argLoad (index : Nat) (ty : Ty)
  deriving DecidableEq, Repr

inductive Stmt where
  | op (id : StmtId) (op : Op)
  /-- A loop over `first`, …, `last - 1`; its id is the index. -/
  | rangeFor (id : StmtId) (first last : Operand) (body : List Stmt) (hint : String)
  /-- A loop that runs `condBody` before every test of `cond`. -/
  | while_ (id : StmtId) (condBody : List Stmt) (cond : Operand) (body : List Stmt)
  | ifElse (id : StmtId) (cond : Operand) (yes no : List Stmt)

namespace Op

def resultTy? : Op → Option Ty
  | localLoad _ _ ty | globalLoad _ ty | binary _ _ _ _ ty | unary _ _ ty | compose _ ty | extract _ _ ty
  | atomic _ _ _ ty | call _ _ _ ty | random ty | argLoad _ ty => some ty
  | texture _ op _ _ ty => if op = .store then none else some ty
  | globalPtr .. => some .i32
  | _ => none

def name : Op → String
  | alloca .. => "alloca"
  | localLoad .. => "local_load"
  | localStore .. => "local_store"
  | globalPtr .. => "global_ptr"
  | globalLoad .. => "global_load"
  | globalStore .. => "global_store"
  | binary .. => "binary_op"
  | unary .. => "unary_op"
  | compose .. => "compose"
  | extract .. => "extract"
  | loopControl _ => "loop_control"
  | atomic .. => "atomic_op"
  | call .. => "call"
  | texture .. => "texture_op"
  | ret .. => "return"
  | random _ => "random"
  | argLoad .. => "arg_load"

end Op

namespace Stmt

def id : Stmt → StmtId
  | op i _ | rangeFor i _ _ _ _ | while_ i _ _ _ | ifElse i _ _ _ => i

def op? : Stmt → Option Op
  | op _ o => some o
  | _ => none

def resultTy? : Stmt → Option Ty
  | op _ o => o.resultTy?
  | rangeFor .. => some .i32
  | _ => none

def name : Stmt → String
  | op _ o => o.name
  | rangeFor .. => "range_for"
  | while_ .. => "while"
  | ifElse .. => "if"

mutual

/-- The statement and all statements inside it, parents before children. -/
def flatten : Stmt → List Stmt
  | op i o => [op i o]
  | rangeFor i b e body h => rangeFor i b e body h :: flattenAll body
  | while_ i cb c body => while_ i cb c body :: (flattenAll cb ++ flattenAll body)
  | ifElse i c yes no => ifElse i c yes no :: (flattenAll yes ++ flattenAll no)

def flattenAll : List Stmt → List Stmt
  | [] => []
  | s :: ss => flatten s ++ flattenAll ss

end

end Stmt

/-- A loop whose iterations are spread over the threads of the device. -/
structure ParallelLoop where
  prologue : List Stmt
  first : Operand
  last : Operand
  index : StmtId
  hint : String
  /-- The number of iterations, if both bounds are constants. -/
  threads : Option Nat

/-- One dispatch: the body of a loop, or statements for a single thread. -/
structure Task where
  loop : Option ParallelLoop := none
  body : List Stmt

namespace Task

def isParallel (t : Task) : Bool := t.loop.isSome

/-- All statements of the task: those of the bounds first, parents before children. -/
def statements (t : Task) : List Stmt :=
  (t.loop.map fun l => Stmt.flattenAll l.prologue).getD [] ++ Stmt.flattenAll t.body

def ops (t : Task) : List Op := t.statements.filterMap Stmt.op?

end Task

structure Param where
  name : String
  ty : Ty
  deriving DecidableEq, Repr

/-- A slot that more than one task uses; it lives in a buffer, at a word offset. -/
structure SharedSlot where
  slot : StmtId
  offset : Nat
  ty : Ty
  deriving DecidableEq, Repr

structure Kernel where
  name : String
  params : List Param
  ret : Option Ty
  tasks : List Task
  shared : List SharedSlot := []
  fields : List FieldInfo
  textures : List TextureInfo

namespace Kernel

def statements (k : Kernel) : List Stmt := k.tasks.flatMap Task.statements

def field? (k : Kernel) (id : Nat) : Option FieldInfo := k.fields.find? (·.id == id)

def texture? (k : Kernel) (id : Nat) : Option TextureInfo := k.textures.find? (·.id == id)

def usesRandom (k : Kernel) : Bool :=
  k.tasks.any fun t => t.ops.any fun
    | .random _ => true
    | _ => false

def paramWords (k : Kernel) : Nat := (k.params.map fun p => p.ty.size).sum

/-- The words of the argument buffer: the parameters, then the seed if random numbers are drawn. -/
def argWords (k : Kernel) : Nat := k.paramWords + (if k.usesRandom then 1 else 0)

def retWords (k : Kernel) : Nat := (k.ret.map Ty.size).getD 0

def sharedWords (k : Kernel) : Nat := (k.shared.map fun s => s.offset + s.ty.size).foldl max 0

end Kernel

end ArrayKernel.IR
