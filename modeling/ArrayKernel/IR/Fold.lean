import ArrayKernel.IR.Literal
import ArrayKernel.Surface.Operator

/-!
Operators on constants. They compute what the device computes: integers wrap, a shift takes its
amount modulo 32, and a remainder has the sign of the dividend. An operation without a value, such
as division of an integer by zero, is left to the device. The one operation that is refused is
division toward the floor of the least integer by minus one.
-/

namespace ArrayKernel

open Number Surface

inductive UnaryOp where
  | neg
  | not
  | bitNot
  | cast (s : Scalar)
  | bitcast (s : Scalar)
  deriving DecidableEq, Repr

def Scalar.tag : Scalar → String
  | .i32 => "I32"
  | .u32 => "U32"
  | .f32 => "F32"

def UnaryOp.text : UnaryOp → String
  | neg => "Neg"
  | not => "Not"
  | bitNot => "BitNot"
  | cast s => s!"Cast({s.tag})"
  | bitcast s => s!"Bitcast({s.tag})"

inductive Overflow where
  | remainder
  deriving DecidableEq, Repr

namespace Fold

/-- Whether a comparison holds, given the order of its operands; without an order only inequality
does. -/
def compare (op : BinOp) (order : Option Ordering) : Bool :=
  match op with
  | .eq => order == some .eq
  | .ne => order != some .eq
  | .lt => order == some .lt
  | .le => order == some .lt || order == some .eq
  | .gt => order == some .gt
  | _ => order == some .gt || order == some .eq

def order? : Literal → Literal → Option Ordering
  | .i32 x, .i32 y => some (Ord.compare x.toInt y.toInt)
  | .u32 x, .u32 y => some (Ord.compare x.toNat y.toNat)
  | .f32 x, .f32 y => Binary32.compare? x y
  | _, _ => none

/-- The remainder of a division whose quotient has to be in range. That of the least integer by
minus one is not. -/
def remainder (x y : Int32) : Except Overflow Int32 :=
  if x = Int32.minValue ∧ y = -1 then .error .remainder else .ok (x % y)

/-- Division of integers that rounds toward negative infinity. The quotient wraps, the remainder
does not. -/
def floorDiv (x y : Int32) : Except Overflow Int32 :=
  let q := x / y
  (remainder x y).map fun r => if r != 0 && (x < 0) != (y < 0) then q - 1 else q

def onI32 (op : BinOp) (x y : Int32) : Except Overflow (Option Int32) :=
  match op with
  | .add => .ok (some (x + y))
  | .sub => .ok (some (x - y))
  | .mul => .ok (some (x * y))
  | .mod => .ok (if y = 0 then none else some (x % y))
  | .floorDiv => if y = 0 then .ok none else (floorDiv x y).map some
  | .bitAnd => .ok (some (x &&& y))
  | .bitOr => .ok (some (x ||| y))
  | .bitXor => .ok (some (x ^^^ y))
  | .shl => .ok (some (x.toUInt32 <<< (y.toUInt32 &&& 31)).toInt32)
  | .shr => .ok (some (x >>> (y &&& 31)))
  | _ => .ok none

def onU32 (op : BinOp) (x y : UInt32) : Option UInt32 :=
  match op with
  | .add => some (x + y)
  | .sub => some (x - y)
  | .mul => some (x * y)
  | .mod => if y = 0 then none else some (x % y)
  | .floorDiv => if y = 0 then none else some (x / y)
  | .bitAnd => some (x &&& y)
  | .bitOr => some (x ||| y)
  | .bitXor => some (x ^^^ y)
  | .shl => some (x <<< (y &&& 31))
  | .shr => some (x >>> (y &&& 31))
  | _ => none

def onF32 (op : BinOp) (x y : Binary32) : Option Binary32 :=
  match op with
  | .add => some (x.add y)
  | .sub => some (x.sub y)
  | .mul => some (x.mul y)
  | .div => some (x.div y)
  | .mod => some (x.rem y)
  | .floorDiv => some (x.div y).floor
  | .pow => some (x.pow y)
  | _ => none

def arithmetic (op : BinOp) : Literal → Literal → Except Overflow (Option Literal)
  | .i32 x, .i32 y => (onI32 op x y).map (·.map .i32)
  | .u32 x, .u32 y => .ok ((onU32 op x y).map .u32)
  | .f32 x, .f32 y => .ok ((onF32 op x y).map .f32)
  | _, _ => .ok none

/-- The value of `a op b`, if it has one: both are converted to `operand`, and the value to
`result`. -/
def binary (op : BinOp) (a b : Literal) (operand result : Scalar) :
    Except Overflow (Option Literal) :=
  let x := a.cast operand
  let y := b.cast operand
  if op.isComparison then
    .ok (some ((Literal.ofBool (compare op (order? x y))).cast result))
  else if op.isLogical then
    let truth := if op = .logicalAnd then x.truthy && y.truthy else x.truthy || y.truthy
    .ok (some ((Literal.ofBool truth).cast result))
  else (arithmetic op x y).map (·.map (·.cast result))

def unary : UnaryOp → Literal → Option Literal
  | .neg, .i32 v => some (.i32 (-v))
  | .neg, .f32 v => some (.f32 v.neg)
  | .neg, .u32 _ => none
  | .not, v => some (.ofBool !v.truthy)
  | .bitNot, .i32 v => some (.i32 (~~~v))
  | .bitNot, .u32 v => some (.u32 (~~~v))
  | .bitNot, .f32 _ => none
  | .cast s, v => some (v.cast s)
  | .bitcast s, v => some (v.bitcast s)

end Fold

end ArrayKernel
