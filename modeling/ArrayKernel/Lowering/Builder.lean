import ArrayKernel.Lowering.Error
import ArrayKernel.Scope.Bindings
import ArrayKernel.Settings.Compiler

/-!
The state that lowering works on, and the steps that every rule is made of.

Statements are emitted into one open block. `capture` opens a block of its own for the statements of
a loop or a branch and gives them back; `inLoop` and `inFunction` keep track of the loops and
functions around a statement.
-/

namespace ArrayKernel.Lowering

open IR

/-- What encloses a statement most closely, as far as leaving it matters. -/
inductive LoopKind where
  | serial
  | parallel
  | static
  /-- The body of a function that is expanded in place. -/
  | function
  deriving DecidableEq, Repr

structure Builder where
  nextId : StmtId := 0
  block : Array Stmt := #[]
  tasks : Array Task := #[]
  /-- The loops and functions around, innermost first. -/
  loops : List LoopKind := []
  /-- The functions that are being expanded, innermost first. -/
  inlining : List (Origin × Span) := []
  ret : Option Ty := none
  fields : List FieldInfo := []
  textures : List TextureInfo := []
  /-- The statements that were emitted for conditions of loops that never run. They are in no task.
  -/
  idle : List Stmt := []

abbrev Lower := EStateM Refusal Builder

def failAt {α : Type} (span : Span) (cause : Cause) : Lower α := throw ⟨cause, span⟩

def typed {α : Type} (span : Span) : Except TypeError α → Lower α
  | .ok a => pure a
  | .error e => failAt span (.ofTypeError e)

def freshId : Lower StmtId :=
  modifyGet fun b => (b.nextId, { b with nextId := b.nextId + 1 })

def push (s : Stmt) : Lower Unit := modify fun b => { b with block := b.block.push s }

def emit (o : Op) : Lower StmtId := do
  let id ← freshId
  push (.op id o)
  return id

def emitValue (o : Op) : Lower Operand := return .stmt (← emit o)

/-- Runs a step with the given block open, and gives the block back with what the step appended. The
block that was open before is open again, also after a failure. -/
def captureInto {α : Type} (start : Array Stmt) (m : Lower α) : Lower (List Stmt × α) := fun b =>
  match m { b with block := start } with
  | .ok a b' => .ok (b'.block.toList, a) { b' with block := b.block }
  | .error e b' => .error e { b' with block := b.block }

def capture {α : Type} (m : Lower α) : Lower (List Stmt × α) := captureInto #[] m

def inLoop {α : Type} (kind : LoopKind) (m : Lower α) : Lower α := fun b =>
  match m { b with loops := kind :: b.loops } with
  | .ok a b' => .ok a { b' with loops := b'.loops.drop 1 }
  | .error e b' => .error e { b' with loops := b'.loops.drop 1 }

def inFunction {α : Type} (f : Origin × Span) (m : Lower α) : Lower α := fun b =>
  match m { b with inlining := f :: b.inlining } with
  | .ok a b' => .ok a { b' with inlining := b'.inlining.drop 1 }
  | .error e b' => .error e { b' with inlining := b'.inlining.drop 1 }

def mapError {α : Type} (f : Refusal → Refusal) (m : Lower α) : Lower α := fun b =>
  match m b with
  | .ok a b' => .ok a b'
  | .error e b' => .error (f e) b'

/-- Closes the open block into a task of its own, unless it is empty. -/
def flushSerial : Lower Unit := modify fun b =>
  if b.block.isEmpty then b
  else { b with tasks := b.tasks.push { body := b.block.toList }, block := #[] }

def leaveOut (ss : List Stmt) : Lower Unit := modify fun b => { b with idle := b.idle ++ ss }

def addTask (t : Task) : Lower Unit := modify fun b => { b with tasks := b.tasks.push t }

def insertById {α : Type} (id : α → Nat) (x : α) : List α → List α
  | [] => [x]
  | y :: ys =>
    if id x < id y then x :: y :: ys
    else if id x = id y then y :: ys
    else y :: insertById id x ys

def touchField (f : FieldInfo) : Lower Unit :=
  modify fun b => { b with fields := insertById FieldInfo.id f b.fields }

def touchTexture (t : TextureInfo) : Lower Unit :=
  modify fun b => { b with textures := insertById TextureInfo.id t b.textures }

end ArrayKernel.Lowering
