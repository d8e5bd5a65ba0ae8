/-!
Binary interchange formats of floating-point numbers.

A bit pattern is read as a `Datum`: a NaN, an infinity, or an exact number `± m · 2 ^ q`. Going
back, `Format.nearest` takes an exact ratio of natural numbers to the magnitude pattern nearest to
it, ties going to the pattern with an even significand. Every arithmetic operation of the project is
"compute exactly on `Datum`, then round once", so nothing rests on machine floating point.
-/

namespace ArrayKernel.Number

-- powers are those of core, also where another instance is in scope; a numeral as exponent has its
-- type for this
attribute [local instance (high)] instPowNat

/-- What a bit pattern stands for. A finite number is `± significand · 2 ^ scale`. -/
inductive Datum where
  | nan
  | infinite (negative : Bool)
  | finite (negative : Bool) (significand : Nat) (scale : Int)
  deriving DecidableEq, Repr

/-- The quotient of two natural numbers rounded to the nearest, a half going to the even neighbour.
-/
def divNearestEven (a b : Nat) : Nat :=
  let q := a / b
  let r := a % b
  if b < 2 * r || (2 * r == b && q % 2 == 1) then q + 1 else q

def scaled (a b : Nat) (e : Int) : Nat × Nat :=
  (a * 2 ^ e.toNat, b * 2 ^ (-e).toNat)

/-- The integer toward zero, held between the two bounds; a NaN gives zero. -/
def Datum.truncate (lo hi : Int) : Datum → Int
  | nan => 0
  | infinite negative => if negative then lo else hi
  | finite negative m q =>
    let (a, b) := scaled m 1 q
    let whole : Int := (a / b : Nat)
    max lo (min hi (if negative then -whole else whole))

def Datum.isOdd : Datum → Bool
  | finite _ m q =>
    let (a, b) := scaled m 1 q
    a % b = 0 && a / b % 2 = 1
  | _ => false

/-- The exponent of the power of two at or below `a / b`, for positive `a` and `b`. -/
def ratioLog2 (a b : Nat) : Int :=
  let e : Int := (Nat.log2 a : Int) - Nat.log2 b
  let (x, y) := scaled a b (-e)
  if x < y then e - 1 else e

/-- A binary interchange format: one sign bit, then `exponentBits`, then `fractionBits`. -/
structure Format where
  fractionBits : Nat
  exponentBits : Nat
  deriving DecidableEq, Repr

namespace Format

def binary32 : Format := ⟨23, 8⟩

def binary64 : Format := ⟨52, 11⟩

def signWeight (f : Format) : Nat := 2 ^ (f.fractionBits + f.exponentBits)

/-- The magnitude pattern of infinity; every larger magnitude is a NaN. -/
def infinity (f : Format) : Nat := (2 ^ f.exponentBits - 1) * 2 ^ f.fractionBits

def leastScale (f : Format) : Int := 2 - 2 ^ (f.exponentBits - 1) - f.fractionBits

def decode (f : Format) (bits : Nat) : Datum :=
  let negative := f.signWeight ≤ bits
  let magnitude := bits % f.signWeight
  let exponent := magnitude / 2 ^ f.fractionBits
  let fraction := magnitude % 2 ^ f.fractionBits
  if f.infinity < magnitude then .nan
  else if magnitude = f.infinity then .infinite negative
  else if exponent = 0 then .finite negative fraction f.leastScale
  else .finite negative (2 ^ f.fractionBits + fraction) (f.leastScale + exponent - 1)

/-- The magnitude pattern nearest to `a / b`. The pattern of `m · 2 ^ q` is `m` plus one full
significand for each step of `q` above the least scale, so a significand that rounds up to the next
power of two carries into the exponent, and a result past the largest number is infinity. -/
def nearest (f : Format) (a b : Nat) : Nat :=
  if a = 0 then 0
  else
    let q := max (ratioLog2 a b - f.fractionBits) f.leastScale
    let (x, y) := scaled a b (-q)
    min ((q - f.leastScale).toNat * 2 ^ f.fractionBits + divNearestEven x y) f.infinity

def signed (f : Format) (negative : Bool) (magnitude : Nat) : Nat :=
  if negative then f.signWeight + magnitude else magnitude

def ofRatio (f : Format) (negative : Bool) (a b : Nat) : Nat :=
  f.signed negative (f.nearest a b)

def ofScaled (f : Format) (negative : Bool) (m : Nat) (q : Int) : Nat :=
  let (x, y) := scaled m 1 q
  f.ofRatio negative x y

/-- The pattern of the quiet NaN that an invalid operation gives: sign set, top fraction bit set. -/
def invalid (f : Format) : Nat :=
  f.signWeight + f.infinity + 2 ^ (f.fractionBits - 1)

def quieted (f : Format) (bits : Nat) : Nat :=
  bits ||| 2 ^ (f.fractionBits - 1)

/-- The magnitude pattern nearest to `m · 10 ^ e`. The first two cases settle the exponents whose
power of ten is past every number of the format or below half of its least one: `10 ^ n` is at least
`8 ^ n`. -/
def nearestDecimal (f : Format) (m : Nat) (e : Int) : Nat :=
  if m = 0 then 0
  else if 2 ^ (f.exponentBits - 1) ≤ 3 * e then f.infinity
  else if (Nat.log2 m : Int) + 1 + 3 * e < f.leastScale - 1 then 0
  else f.nearest (m * 10 ^ e.toNat) (10 ^ (-e).toNat)

end Format

end ArrayKernel.Number
