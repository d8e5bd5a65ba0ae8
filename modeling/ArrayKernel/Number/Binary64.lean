import ArrayKernel.Number.Binary32

/-!
Double-precision numbers as bit patterns. They occur where text is read and where a host gives a
number; the arithmetic of kernels is single precision.
-/

namespace ArrayKernel.Number

attribute [local instance (high)] instPowNat

structure Binary64 where
  bits : UInt64
  deriving DecidableEq, Repr, Inhabited, Hashable

namespace Binary64

def ofBits (n : Nat) : Binary64 := ⟨UInt64.ofNat n⟩

def datum (x : Binary64) : Datum := Format.binary64.decode x.bits.toNat

def ofInt (n : Int) : Binary64 := ofBits (Format.binary64.ofRatio (n < 0) n.natAbs 1)

def ofDecimal (negative : Bool) (m : Nat) (e : Int) : Binary64 :=
  ofBits (Format.binary64.signed negative (Format.binary64.nearestDecimal m e))

def infinity (negative : Bool) : Binary64 :=
  ofBits (Format.binary64.signed negative Format.binary64.infinity)

def nan (negative : Bool) : Binary64 :=
  ofBits (Format.binary64.signed negative (Format.binary64.infinity + 2 ^ (51 : Nat)))

/-- The integer toward zero, held between the two bounds; a NaN gives zero. -/
def truncate (x : Binary64) (lo hi : Int) : Int := x.datum.truncate lo hi

/-- The nearest single-precision number. A NaN keeps its sign and the top of its payload, and
becomes quiet. -/
def toBinary32 (x : Binary64) : Binary32 :=
  match x.datum with
  | .nan =>
    let n := x.bits.toNat
    let payload := n % 2 ^ (52 : Nat) / 2 ^ (29 : Nat)
    Binary32.quiet (Binary32.ofBits
      (Format.binary32.signed (2 ^ (63 : Nat) ≤ n) (Format.binary32.infinity + payload)))
  | .infinite negative => Binary32.infinity negative
  | .finite negative m q => Binary32.ofScaled negative m q

end Binary64

namespace Binary32

/-- The same number in double precision; a NaN becomes quiet and keeps its payload. -/
def toBinary64 (x : Binary32) : Binary64 :=
  match x.datum with
  | .nan =>
    let n := x.quiet.bits.toNat
    Binary64.ofBits (Format.binary64.signed (2 ^ (31 : Nat) ≤ n)
      (Format.binary64.infinity + n % 2 ^ (23 : Nat) * 2 ^ (29 : Nat)))
  | .infinite negative => Binary64.infinity negative
  | .finite negative m q => Binary64.ofBits (Format.binary64.ofScaled negative m q)

def ofDecimal (negative : Bool) (m : Nat) (e : Int) : Binary32 :=
  ofBits (Format.binary32.signed negative (Format.binary32.nearestDecimal m e))

end Binary32

end ArrayKernel.Number
