import ArrayKernel.Number.Shortest
import ArrayKernel.Typing.Ty

/-!
Constants of kernels, and the conversions between them.
-/

namespace ArrayKernel

open Number

attribute [local instance (high)] instPowNat

inductive Literal where
  | i32 (v : Int32)
  | u32 (v : UInt32)
  | f32 (v : Binary32)
  deriving DecidableEq, Repr, Inhabited

namespace Literal

def scalar : Literal → Scalar
  | i32 _ => .i32
  | u32 _ => .u32
  | f32 _ => .f32

def ty (l : Literal) : Ty := .scalar l.scalar

/-- Conversion by value. Integers wrap; a float goes toward zero and stops at the ends of the range.
-/
def cast : Literal → Scalar → Literal
  | i32 v, .i32 => i32 v
  | i32 v, .u32 => u32 v.toUInt32
  | i32 v, .f32 => f32 (.ofInt v.toInt)
  | u32 v, .i32 => i32 v.toInt32
  | u32 v, .u32 => u32 v
  | u32 v, .f32 => f32 (.ofInt v.toNat)
  | f32 v, .i32 => i32 (.ofInt (v.truncate (-2 ^ (31 : Nat)) (2 ^ (31 : Nat) - 1)))
  | f32 v, .u32 => u32 (.ofNat (v.truncate 0 (2 ^ (32 : Nat) - 1)).toNat)
  | f32 v, .f32 => f32 v

def bits : Literal → UInt32
  | i32 v => v.toUInt32
  | u32 v => v
  | f32 v => v.bits

def ofBits (w : UInt32) : Scalar → Literal
  | .i32 => i32 w.toInt32
  | .u32 => u32 w
  | .f32 => f32 ⟨w⟩

def bitcast (l : Literal) (s : Scalar) : Literal := ofBits l.bits s

def toBinary64 : Literal → Binary64
  | i32 v => .ofInt v.toInt
  | u32 v => .ofInt v.toNat
  | f32 v => v.toBinary64

def toInt? : Literal → Option Int
  | i32 v => some v.toInt
  | u32 v => some v.toNat
  | f32 v =>
    match v.datum with
    | .finite .. =>
      if v.floor.eq v then some (v.truncate (-2 ^ (63 : Nat)) (2 ^ (63 : Nat) - 1)) else none
    | _ => none

/-- Whether the constant counts as true: it differs from zero. A NaN does. -/
def truthy : Literal → Bool
  | i32 v => v != 0
  | u32 v => v != 0
  | f32 v => !v.eq .zero

def text : Literal → String
  | i32 v => toString v.toInt ++ "i"
  | u32 v => toString v.toNat ++ "u"
  | f32 v => v.text ++ "f"

/-- How a shader writes a constant. The least integer and what is no finite number have no literal
of their own. -/
def shaderText (l : Literal) : String :=
  match l with
  | i32 v => if v = Int32.minValue then "i32(-2147483648)" else l.text
  | u32 _ => l.text
  | f32 v =>
    match v.datum with
    | .finite .. => l.text
    | _ => s!"bitcast<f32>({v.bits.toNat}u)"

def ofBool (b : Bool) : Literal := i32 (if b then 1 else 0)

end Literal

end ArrayKernel
