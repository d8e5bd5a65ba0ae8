/-!
The types of kernel values: scalars, short vectors, small matrices, and structures of them.
-/

namespace ArrayKernel

inductive Scalar where
  | i32 | u32 | f32
  deriving DecidableEq, Repr, Inhabited

namespace Scalar

def name : Scalar → String
  | i32 => "i32"
  | u32 => "u32"
  | f32 => "f32"

def isFloat : Scalar → Bool
  | f32 => true
  | _ => false

/-- The common type of two components: `f32` if either is, else `i32` unless they agree. -/
def promote (a b : Scalar) : Scalar :=
  if a = b then a else if a = f32 || b = f32 then f32 else i32

def ofName? : String → Option Scalar
  | "i32" | "int" | "int32" => some i32
  | "u32" | "uint" | "uint32" => some u32
  | "f32" | "float" | "float32" => some f32
  | _ => none

end Scalar

/-- The number of components of a vector, or of rows or columns of a matrix. -/
inductive Dim where
  | two | three | four
  deriving DecidableEq, Repr, Inhabited

namespace Dim

def toNat : Dim → Nat
  | two => 2
  | three => 3
  | four => 4

def ofNat? : Nat → Option Dim
  | 2 => some two
  | 3 => some three
  | 4 => some four
  | _ => none

end Dim

mutual

/-- A value type. The components of a matrix are `f32` and are numbered row by row. -/
inductive Ty where
  | scalar (s : Scalar)
  | vector (s : Scalar) (n : Dim)
  | matrix (rows cols : Dim)
  | struct (members : Members)
  deriving DecidableEq, Repr

inductive Members where
  | nil
  | cons (name : String) (ty : Ty) (rest : Members)
  deriving DecidableEq, Repr

end

instance : Inhabited Ty := ⟨.scalar .i32⟩

namespace Members

def ofList : List (String × Ty) → Members
  | [] => nil
  | (n, t) :: rest => cons n t (ofList rest)

def toList : Members → List (String × Ty)
  | nil => []
  | cons n t rest => (n, t) :: rest.toList

@[simp] theorem toList_ofList (l : List (String × Ty)) : (ofList l).toList = l := by
  induction l with
  | nil => rfl
  | cons p rest ih => simp [ofList, toList, ih]

@[simp] theorem ofList_toList : (m : Members) → ofList m.toList = m
  | nil => rfl
  | cons n t rest => by simp [ofList, toList, ofList_toList rest]

end Members

namespace Ty

abbrev i32 : Ty := .scalar .i32
abbrev u32 : Ty := .scalar .u32
abbrev f32 : Ty := .scalar .f32

def scalar? : Ty → Option Scalar
  | scalar s => some s
  | vector s _ => some s
  | matrix _ _ => some .f32
  | struct _ => none

mutual

def size : Ty → Nat
  | scalar _ => 1
  | vector _ n => n.toNat
  | matrix r c => r.toNat * c.toNat
  | struct ms => sizeOfMembers ms

def sizeOfMembers : Members → Nat
  | .nil => 0
  | .cons _ t rest => t.size + sizeOfMembers rest

end

mutual

def scalars : Ty → List Scalar
  | scalar s => [s]
  | vector s n => List.replicate n.toNat s
  | matrix r c => List.replicate (r.toNat * c.toNat) .f32
  | struct ms => scalarsOfMembers ms

def scalarsOfMembers : Members → List Scalar
  | .nil => []
  | .cons _ t rest => t.scalars ++ scalarsOfMembers rest

end

def isScalar : Ty → Bool
  | scalar _ => true
  | _ => false

def isVector : Ty → Bool
  | vector _ _ => true
  | _ => false

def isMatrix : Ty → Bool
  | matrix _ _ => true
  | _ => false

def isStruct : Ty → Bool
  | struct _ => true
  | _ => false

/-- The same shape with other components. Matrices and structures stay as they are. -/
def withScalar (s : Scalar) : Ty → Ty
  | scalar _ => scalar s
  | vector _ n => vector s n
  | t => t

def component (t : Ty) : Ty :=
  match t.scalar? with
  | some s => scalar s
  | none => t

/-- The type that one index selects: a component of a vector or a row of a matrix. -/
def index? : Ty → Option Ty
  | vector s _ => some (scalar s)
  | matrix _ c => some (vector .f32 c)
  | _ => none

mutual

/-- How messages and listings write a type: matrices as rows by columns. -/
def text : Ty → String
  | scalar s => s.name
  | vector s n => s!"vec{n.toNat}<{s.name}>"
  | matrix r c => s!"mat{r.toNat}x{c.toNat}<f32>"
  | struct ms => "\x7b" ++ ",".intercalate (textOfMembers ms) ++ " \x7d"

def textOfMembers : Members → List String
  | .nil => []
  | .cons n t rest => s!" {n}: {t.text}" :: textOfMembers rest

end

mutual

def shaderText : Ty → String
  | scalar s => s.name
  | vector s n => s!"vec{n.toNat}<{s.name}>"
  | matrix r c => s!"mat{c.toNat}x{r.toNat}<f32>"
  | struct ms => "struct \x7b " ++ ", ".intercalate (shaderTextOfMembers ms) ++ " \x7d"

def shaderTextOfMembers : Members → List String
  | .nil => []
  | .cons n t rest => s!"{n}: {t.shaderText}" :: shaderTextOfMembers rest

end

end Ty

namespace Members

/-- The first member of a name: the number of components before it, and its type. -/
def find? (name : String) : Members → Option (Nat × Ty)
  | nil => none
  | cons n t rest => if n = name then some (0, t) else (rest.find? name).map fun (k, u) => (t.size + k, u)

end Members

end ArrayKernel
