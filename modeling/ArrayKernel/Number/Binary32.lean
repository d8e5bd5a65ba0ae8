import ArrayKernel.Number.Format

/-!
Single-precision numbers as bit patterns, with the arithmetic that constant folding performs.

Each operation works on the exact values and rounds once, to nearest, ties to even. An invalid
operation gives the quiet NaN with its sign set; an operation with a NaN operand gives that operand,
made quiet, the first one before the second.
-/

namespace ArrayKernel.Number

attribute [local instance (high)] instPowNat

structure Binary32 where
  bits : UInt32
  deriving DecidableEq, Repr, Inhabited, Hashable

namespace Binary32

def ofBits (n : Nat) : Binary32 := ⟨UInt32.ofNat n⟩

def datum (x : Binary32) : Datum := Format.binary32.decode x.bits.toNat

def isNaN (x : Binary32) : Bool :=
  match x.datum with
  | .nan => true
  | _ => false

/-- True of an infinity or a finite number below zero, and of negative zero. -/
def signBit (x : Binary32) : Bool := 0x80000000 ≤ x.bits

def zero : Binary32 := ⟨0⟩

def one : Binary32 := ⟨0x3F800000⟩

def invalid : Binary32 := ofBits Format.binary32.invalid

def quiet (x : Binary32) : Binary32 := ofBits (Format.binary32.quieted x.bits.toNat)

def ofRatio (negative : Bool) (a b : Nat) : Binary32 :=
  ofBits (Format.binary32.ofRatio negative a b)

def ofScaled (negative : Bool) (m : Nat) (q : Int) : Binary32 :=
  ofBits (Format.binary32.ofScaled negative m q)

def infinity (negative : Bool) : Binary32 :=
  ofBits (Format.binary32.signed negative Format.binary32.infinity)

def ofInt (n : Int) : Binary32 := ofRatio (n < 0) n.natAbs 1

def neg (x : Binary32) : Binary32 := ⟨x.bits ^^^ 0x80000000⟩

/-- The exact sum of two scaled integers, over the smaller of the two scales. -/
def exactSum (n₁ : Bool) (m₁ : Nat) (q₁ : Int) (n₂ : Bool) (m₂ : Nat) (q₂ : Int) : Int × Int :=
  let q := min q₁ q₂
  let signed (n : Bool) (m : Nat) (s : Int) : Int :=
    let v : Int := (m * 2 ^ (s - q).toNat : Nat)
    if n then -v else v
  (signed n₁ m₁ q₁ + signed n₂ m₂ q₂, q)

/-- Sum of two values neither of which is a NaN. A sum of zero is negative only when both terms are.
-/
def addDatum : Datum → Datum → Binary32
  | .infinite n₁, .infinite n₂ => if n₁ = n₂ then infinity n₁ else invalid
  | .infinite n, _ => infinity n
  | _, .infinite n => infinity n
  | .finite n₁ m₁ q₁, .finite n₂ m₂ q₂ =>
    let (v, q) := exactSum n₁ m₁ q₁ n₂ m₂ q₂
    if v = 0 then ofScaled (n₁ && n₂) 0 0 else ofScaled (v < 0) v.natAbs q
  | _, _ => invalid

def Datum.negate : Datum → Datum
  | .nan => .nan
  | .infinite n => .infinite !n
  | .finite n m q => .finite (!n) m q

/-- An operation on two operands, given on values that are no NaN. -/
def lift₂ (op : Datum → Datum → Binary32) (x y : Binary32) : Binary32 :=
  if x.isNaN then x.quiet else if y.isNaN then y.quiet else op x.datum y.datum

def add : Binary32 → Binary32 → Binary32 := lift₂ addDatum

def sub : Binary32 → Binary32 → Binary32 := lift₂ fun a b => addDatum a (Datum.negate b)

def mulDatum : Datum → Datum → Binary32
  | .infinite n₁, .infinite n₂ => infinity (n₁ != n₂)
  | .infinite n₁, .finite n₂ m _ => if m = 0 then invalid else infinity (n₁ != n₂)
  | .finite n₁ m _, .infinite n₂ => if m = 0 then invalid else infinity (n₁ != n₂)
  | .finite n₁ m₁ q₁, .finite n₂ m₂ q₂ => ofScaled (n₁ != n₂) (m₁ * m₂) (q₁ + q₂)
  | _, _ => invalid

def mul : Binary32 → Binary32 → Binary32 := lift₂ mulDatum

def divDatum : Datum → Datum → Binary32
  | .infinite n₁, .finite n₂ _ _ => infinity (n₁ != n₂)
  | .finite n₁ _ _, .infinite n₂ => ofScaled (n₁ != n₂) 0 0
  | .finite n₁ m₁ q₁, .finite n₂ m₂ q₂ =>
    if m₂ = 0 then
      if m₁ = 0 then invalid else infinity (n₁ != n₂)
    else
      let (a, b) := scaled m₁ m₂ (q₁ - q₂)
      ofRatio (n₁ != n₂) a b
  | _, _ => invalid

def div : Binary32 → Binary32 → Binary32 := lift₂ divDatum

/-- Remainder of the division that rounds toward zero; it has the sign of the dividend and is exact.
-/
def remDatum : Datum → Datum → Binary32
  | .finite n m q, .infinite _ => ofScaled n m q
  | .finite n₁ m₁ q₁, .finite _ m₂ q₂ =>
    if m₂ = 0 then invalid
    else
      let q := min q₁ q₂
      ofScaled n₁ ((m₁ * 2 ^ (q₁ - q).toNat) % (m₂ * 2 ^ (q₂ - q).toNat)) q
  | _, _ => invalid

def rem : Binary32 → Binary32 → Binary32 := lift₂ remDatum

def floor (x : Binary32) : Binary32 :=
  match x.datum with
  | .nan => x.quiet
  | .infinite _ => x
  | .finite negative m q =>
    if 0 ≤ q || m == 0 then x
    else
      let unit := 2 ^ (-q).toNat
      let whole := m / unit
      ofRatio negative (if negative && m % unit != 0 then whole + 1 else whole) 1

/-- Whether an operation on a NaN signals: the bit that makes it quiet is not set. -/
def isSignaling (x : Binary32) : Bool := x.isNaN && x.quiet ≠ x

/-- The power if an operand is a NaN. With exponent zero or base one it is one, unless the NaN
signals. Otherwise it is the NaN, made quiet, that of the base before that of the exponent; an odd
exponent clears the sign of the base. -/
def powNaN (x y : Binary32) : Binary32 :=
  if y.bits <<< 1 = 0 then if x.isSignaling then x.quiet else one
  else if x = one then if y.isSignaling then y.quiet else one
  else if y.isNaN then x.add y
  else if x.signBit && y.datum.isOdd then x.quiet.neg
  else x.quiet

/-- The power. On numbers it is the machine's single-precision `pow`; an invalid power has the
pattern of all invalid operations. -/
def pow (x y : Binary32) : Binary32 :=
  if x.isNaN || y.isNaN then powNaN x y
  else
    let r : Binary32 := ⟨(Float32.pow (Float32.ofBits x.bits) (Float32.ofBits y.bits)).toBits⟩
    if r.isNaN then invalid else r

/-- The order of two numbers; none if either is a NaN. The two zeros are equal. -/
def compare? (x y : Binary32) : Option Ordering :=
  match x.datum, y.datum with
  | .nan, _ => none
  | _, .nan => none
  | .infinite n₁, .infinite n₂ =>
    some (if n₁ = n₂ then .eq else if n₁ then .lt else .gt)
  | .infinite n, .finite .. => some (if n then .lt else .gt)
  | .finite .., .infinite n => some (if n then .gt else .lt)
  | .finite n₁ m₁ q₁, .finite n₂ m₂ q₂ =>
    let (d, _) := exactSum n₁ m₁ q₁ (!n₂) m₂ q₂
    some (if d < 0 then .lt else if d = 0 then .eq else .gt)

def lt (x y : Binary32) : Bool := compare? x y == some .lt
def le (x y : Binary32) : Bool := compare? x y == some .lt || compare? x y == some .eq
def eq (x y : Binary32) : Bool := compare? x y == some .eq

/-- The integer toward zero, held between the two bounds; a NaN gives zero. -/
def truncate (x : Binary32) (lo hi : Int) : Int := x.datum.truncate lo hi

end Binary32

end ArrayKernel.Number
