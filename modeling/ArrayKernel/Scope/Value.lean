import ArrayKernel.IR.Stmt
import ArrayKernel.Surface.Tree

/-!
What a name can stand for: constants, resources, records and functions that the host gives, and the
places and operands that come about while a kernel is lowered.
-/

namespace ArrayKernel

open IR Surface

/-- Where the text of a function came from. With its span this tells functions apart. -/
inductive Origin where
  | kernel
  | library (name : String)
  | host (name : String)
  deriving DecidableEq, Repr

inductive Place where
  /-- A slot, or the part of it that the indices select. -/
  | local (slot : StmtId) (slotTy : Ty) (indices : List Operand) (ty : Ty)
  /-- An element of a field, or the part of it that starts `offset` components in. -/
  | global (field : FieldInfo) (indices : List Operand) (offset : Operand) (ty : Ty)
  deriving Repr

def Place.ty : Place → Ty
  | .local _ _ _ t => t
  | .global _ _ _ t => t

structure FunctionValue where
  name : String
  routine : Routine
  origin : Origin

def FunctionValue.identity (f : FunctionValue) : Origin × Span := (f.origin, f.routine.span)

mutual

inductive Value where
  | number (l : Literal)
  | array (values : List Literal) (ty : Ty)
  | field (f : FieldInfo)
  | texture (t : TextureInfo)
  | record (r : Record)
  | function (f : FunctionValue)
  | place (p : Place)
  /-- A value that is already computed, such as a loop index. -/
  | bound (o : Operand) (ty : Ty)
  /-- An argument of the kernel, by the word that it starts at. -/
  | arg (index : Nat) (ty : Ty)

inductive Record where
  | nil
  | cons (name : String) (value : Value) (rest : Record)

end

instance : Inhabited Value := ⟨.number default⟩

namespace Record

def ofList : List (String × Value) → Record
  | [] => nil
  | (k, v) :: rest => cons k v (ofList rest)

def toList : Record → List (String × Value)
  | nil => []
  | cons k v rest => (k, v) :: rest.toList

@[simp] theorem toList_ofList (l : List (String × Value)) : (ofList l).toList = l := by
  induction l with
  | nil => rfl
  | cons p rest ih => simp [ofList, toList, ih]

def get? (name : String) : Record → Option Value
  | nil => none
  | cons k v rest => if k = name then some v else rest.get? name

end Record

namespace Value

def ofVector (xs : List Number.Binary32) : Except TypeError Value :=
  (Ty.ofVector .f32 xs.length).map fun ty => array (xs.map .f32) ty

def ofMatrix (rows : List (List Number.Binary32)) : Except TypeError Value := do
  let cols := (rows.head?.map List.length).getD 0
  let ty ← Ty.ofMatrix rows.length cols
  match rows.find? (·.length != cols) with
  | some bad => .error (.shapeMismatch (← Ty.ofVector .f32 cols) (← Ty.ofVector .f32 bad.length))
  | none => .ok (array (rows.flatten.map .f32) ty)

def isConstant : Value → Bool
  | number _ | array .. => true
  | _ => false

def isTransient : Value → Bool
  | place _ | bound .. | arg .. => true
  | _ => false

def isFunction : Value → Bool
  | function _ => true
  | _ => false

def isRecord : Value → Bool
  | record _ => true
  | _ => false

def kindName : Value → String
  | number _ => "number"
  | array .. => "number array"
  | field _ => "field"
  | texture _ => "texture"
  | record _ => "record"
  | function _ => "function"
  | place _ => "variable"
  | bound .. => "value"
  | arg .. => "kernel argument"

def text : Value → String
  | number l => l.text
  | array vs ty => ty.text ++ "(" ++ ", ".intercalate (vs.map Literal.text) ++ ")"
  | field f => s!"field {f.name}{f.shapeText}: {f.elem.text}"
  | texture t => s!"texture {t.name}{bracketed t.dims}"
  | record r => "\x7b " ++ ", ".intercalate (r.toList.map Prod.fst) ++ " \x7d"
  | function f => s!"function {f.name}"
  | v => s!"<{v.kindName}>"

end Value

end ArrayKernel
