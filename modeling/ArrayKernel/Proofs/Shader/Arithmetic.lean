import ArrayKernel.Shader.Task

/-!
# Integer arithmetic of shaders

The expressions that shaders compute integers with, as terms with a text and a value. An operator
is applied to exact integers, and what it gives is reduced to 32 bits.
-/

namespace ArrayKernel.Shader

open IR Surface

attribute [local instance (high)] instPowNat

/-! ## 1. Values -/

inductive Quantity where
  | number (l : Literal)
  | truth (p : Bool)
  deriving DecidableEq, Repr

def signed (z : Int) : Literal := .i32 (.ofInt z)

def unsigned (z : Int) : Literal := .u32 (.ofInt z)

namespace Quantity

/-- Sums, quotients and comparisons of exact integers; `keep` is how a result is kept in 32 bits. -/
def exact (keep : Int → Literal) (op : BinOp) (m n : Int) : Option Quantity :=
  match op with
  | .add => some (.number (keep (m + n)))
  | .sub => some (.number (keep (m - n)))
  | .mul => some (.number (keep (m * n)))
  | .div => some (.number (keep (if n = 0 then m else m.tdiv n)))
  | .mod => some (.number (keep (if n = 0 then 0 else m.tmod n)))
  | .eq => some (.truth (m = n))
  | .ne => some (.truth (m ≠ n))
  | .lt => some (.truth (m < n))
  | .le => some (.truth (m ≤ n))
  | .gt => some (.truth (m > n))
  | .ge => some (.truth (m ≥ n))
  | _ => none

def bitwise (s : Scalar) (op : BinOp) (v w : UInt32) : Option Quantity :=
  match op with
  | .bitAnd => some (.number (.ofBits (v &&& w) s))
  | .bitOr => some (.number (.ofBits (v ||| w) s))
  | .bitXor => some (.number (.ofBits (v ^^^ w) s))
  | _ => none

/-- A shift multiplies by a power of two, or divides by it and rounds down. -/
def shifted (keep : Int → Literal) (op : BinOp) (m : Int) (amount : UInt32) : Option Quantity :=
  match op with
  | .shl => some (.number (keep (m * 2 ^ (amount.toNat % 32))))
  | .shr => some (.number (keep (m / 2 ^ (amount.toNat % 32))))
  | _ => none

def logical (op : BinOp) (p q : Bool) : Option Quantity :=
  match op with
  | .logicalAnd => some (.truth (p && q))
  | .logicalOr => some (.truth (p || q))
  | .eq => some (.truth (p == q))
  | .ne => some (.truth (p != q))
  | _ => none

/-- The value of an operator. Operands are of one type, except for the amount of a shift, which has
no sign. -/
def infixed (op : BinOp) : Quantity → Quantity → Option Quantity
  | truth p, truth q => logical op p q
  | number (.i32 x), number (.i32 y) => (exact signed op x.toInt y.toInt).or (bitwise .i32 op x.toUInt32 y.toUInt32)
  | number (.u32 x), number (.u32 y) =>
    ((exact unsigned op x.toNat y.toNat).or (bitwise .u32 op x y)).or (shifted unsigned op x.toNat y)
  | number (.i32 x), number (.u32 k) => shifted signed op x.toInt k
  | _, _ => none

def convert (s : Scalar) : Quantity → Quantity
  | number l => .number (l.cast s)
  | truth p => .number ((Literal.ofBool p).cast s)

end Quantity

/-! ## 2. Expressions -/

inductive Calculation where
  | literal (l : Literal)
  | name (x : String)
  | infixed (op : BinOp) (a b : Calculation)
  | parens (a : Calculation)
  | convert (s : Scalar) (a : Calculation)
  | call (f : String) (a b : Calculation)

namespace Calculation

def text : Calculation → String
  | literal l => l.shaderText
  | name x => x
  | infixed op a b => s!"{a.text} {op.symbol} {b.text}"
  | parens a => s!"({a.text})"
  | convert s a => applied s.name [a.text]
  | call f a b => applied f [a.text, b.text]

/-- The value, given those of names and of calls. -/
def value (calls : String → Quantity → Quantity → Option Quantity)
    (names : String → Option Quantity) : Calculation → Option Quantity
  | literal l => some (.number l)
  | name x => names x
  | infixed op a b => (a.value calls names).bind fun x => (b.value calls names).bind (x.infixed op)
  | parens a => a.value calls names
  | convert s a => (a.value calls names).map (Quantity.convert s)
  | call f a b => (a.value calls names).bind fun x => (b.value calls names).bind (calls f x)

end Calculation

/-! ## 3. Functions -/

inductive Calculation.Step where
  | define (x : String) (a : Calculation)
  | returnIf (test a : Calculation)
  | giveBack (a : Calculation)

structure Helper where
  name : String
  body : List Calculation.Step

namespace Calculation.Step

def lines : Step → List String
  | define x a => [s!"    let {x} = {a.text};"]
  | returnIf test a => [s!"    if ({test.text}) \x7b", s!"        return {a.text};", "    \x7d"]
  | giveBack a => [s!"    return {a.text};"]

def run (names : String → Option Quantity) : List Step → Option Quantity
  | [] => none
  | define x a :: rest =>
    (a.value (fun _ _ _ => none) names).bind fun v => run (fun y => if y = x then some v else names y) rest
  | returnIf test a :: rest =>
    match test.value (fun _ _ _ => none) names with
    | some (.truth true) => a.value (fun _ _ _ => none) names
    | some (.truth false) => run names rest
    | _ => none
  | giveBack a :: _ => a.value (fun _ _ _ => none) names

end Calculation.Step

namespace Helper

def text (f : Helper) : String :=
  "\n".intercalate ([s!"fn {f.name}(a: i32, b: i32) -> i32 \x7b"] ++ f.body.flatMap (·.lines) ++ ["\x7d"])

def call (f : Helper) (x y : Quantity) : Option Quantity :=
  Calculation.Step.run (fun z => if z = "a" then some x else if z = "b" then some y else none) f.body

end Helper

/-- Division toward the floor, made of division toward zero: one is taken off where a remainder is
left and the signs differ. -/
def floorDivHelper : Helper where
  name := "floor_div_i32"
  body :=
    let zero := .literal (.i32 0)
    let negative (x : String) : Calculation := .parens (.infixed .lt (.name x) zero)
    let inexact := .infixed .ne (.infixed .mod (.name "a") (.name "b")) zero
    [.define "q" (.infixed .div (.name "a") (.name "b")),
     .returnIf (.infixed .logicalAnd inexact (.infixed .ne (negative "a") (negative "b")))
       (.infixed .sub (.name "q") (.literal (.i32 1))),
     .giveBack (.name "q")]

theorem text_floorDivHelper : floorDivHelper.text = floorDivSource := by
  decide +kernel

def Calculation.onDevice (a : Calculation) : Option Quantity :=
  a.value (fun f x y => if f = floorDivHelper.name then floorDivHelper.call x y else none) fun _ => none

/-! ## 4. Binary operators -/

/-- How a shader computes a binary operator on integers. -/
def Calculation.ofBinary (op : BinOp) (a b : Calculation) (operand result : Scalar) : Calculation :=
  let zero := .literal ((Literal.i32 0).cast operand)
  if op = .matMul then .parens (.infixed .mul a b)
  else if op.isComparison then .convert result (.infixed op a b)
  else if op.isLogical then
    .convert result (.infixed op (.parens (.infixed .ne a zero)) (.parens (.infixed .ne b zero)))
  else match op, operand with
    | .shl, _ | .shr, _ => .parens (.infixed op a (.parens (.infixed .bitAnd (.convert .u32 b) (.literal (.u32 31)))))
    | .pow, _ => .call "pow" a b
    | .floorDiv, .u32 => .parens (.infixed .div a b)
    | .floorDiv, _ => .call floorDivHelper.name a b
    | _, _ => .parens (.infixed op a b)

theorem Calculation.text_ofBinary (op : BinOp) (a b : Calculation) {operand : Scalar}
    (result : Scalar) (ho : operand ≠ .f32) :
    (ofBinary op a b operand result).text = binaryExpr op a.text b.text (.scalar operand) (.scalar result) := by
  -- character by character, since the pieces that the texts are made of are cut differently
  apply String.toList_inj.1
  unfold ofBinary binaryExpr
  have h31 : (Literal.u32 31).shaderText = "31u" := by decide +kernel
  cases operand with
  | f32 => exact absurd rfl ho
  | i32 | u32 =>
    cases op <;>
      simp [text, zero, wordScalar, floorDivHelper, BinOp.isComparison, BinOp.isLogical, applied,
        BinOp.symbol, Ty.isScalar, Ty.scalar?, Ty.shaderText, toString, h31, Scalar.name]

end ArrayKernel.Shader
