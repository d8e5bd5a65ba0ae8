import ArrayKernel.Typing.Ty

/-!
Device resources that kernels refer to: fields, which are shaped arrays of values, and textures.
-/

namespace ArrayKernel

def bracketed (ns : List Nat) : String := "[" ++ ", ".intercalate (ns.map toString) ++ "]"

/-- A size that is no 64-bit word. The program stops there. -/
inductive SizeOverflow where
  | product
  deriving DecidableEq, Repr

def SizeOverflow.message : SizeOverflow → String
  | product => "attempt to multiply with overflow"

/-- The product of two sizes. -/
def sizeProduct (m n : Nat) : Except SizeOverflow Nat :=
  if m * n < UInt64.size then .ok (m * n) else .error .product

/-- A typed, shaped device array. Storage is one 32-bit word for each component. Extents and sizes
are 64-bit words. -/
structure FieldInfo where
  id : Nat
  name : String
  shape : List UInt64
  elem : Ty
  deriving DecidableEq, Repr, Inhabited

namespace FieldInfo

/-- The number of elements, multiplied up from the first extent to the last. -/
def len (f : FieldInfo) : Except SizeOverflow Nat :=
  f.shape.foldlM (fun n extent => sizeProduct n extent.toNat) 1

def isEmpty (f : FieldInfo) : Except SizeOverflow Bool := do return (← f.len) == 0

def words (f : FieldInfo) : Except SizeOverflow Nat := do sizeProduct (← f.len) f.elem.size

def bytes (f : FieldInfo) : Except SizeOverflow Nat := do sizeProduct (← f.words) 4

/-- The distance, in elements and modulo `2 ^ 64`, of two neighbours along each dimension; the last
dimension varies fastest. -/
def stridesOf : List UInt64 → List UInt64
  | [] => []
  | _ :: rest => rest.foldl (· * ·) 1 :: stridesOf rest

def strides (f : FieldInfo) : List UInt64 := stridesOf f.shape

def shapeText (f : FieldInfo) : String := bracketed (f.shape.map UInt64.toNat)

end FieldInfo

inductive TexelFormat where
  | rgba8unorm | rgba16float | rgba32float | r32float
  deriving DecidableEq, Repr

namespace TexelFormat

def name : TexelFormat → String
  | rgba8unorm => "rgba8unorm"
  | rgba16float => "rgba16float"
  | rgba32float => "rgba32float"
  | r32float => "r32float"

def ofName? : String → Option TexelFormat
  | "rgba8unorm" => some rgba8unorm
  | "rgba16float" => some rgba16float
  | "rgba32float" => some rgba32float
  | "r32float" => some r32float
  | _ => none

def bytes : TexelFormat → Nat
  | rgba8unorm | r32float => 4
  | rgba16float => 8
  | rgba32float => 16

end TexelFormat

/-- A texture. A storage texture is written by kernels; any other is read and sampled. -/
structure TextureInfo where
  id : Nat
  name : String
  dims : List Nat
  format : TexelFormat
  storage : Bool
  deriving DecidableEq, Repr

namespace TextureInfo

def rank (t : TextureInfo) : Nat := t.dims.length

end TextureInfo

end ArrayKernel
