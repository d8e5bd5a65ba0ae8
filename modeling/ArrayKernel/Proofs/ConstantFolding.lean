import ArrayKernel.Proofs.Meaning.Operators
import ArrayKernel.Proofs.Shader.Arithmetic
import ArrayKernel.Proofs.Typing.Rules

/-!
# Constants are folded to what the device computes

Folding gives the value of the expression that a shader has (`fold_computes`), except that the
device wraps when it divides the least integer by minus one, and folding gives up.
-/

namespace ArrayKernel

open Surface Option Int32

attribute [local instance (high)] instPowNat

variable {op : BinOp} {x y : Literal} {s : Scalar}

namespace Shader

variable {w k : UInt32} {result : Scalar}

/-! ## 1. Integers in 32 bits -/

theorem signed_toInt {x : Int32} : signed x.toInt = .i32 x := congrArg Literal.i32 (ofInt_toInt x)

theorem ofInt_toNat {x : UInt32} : UInt32.ofInt x.toNat = x := by
  refine UInt32.toNat_inj.1 ?_
  simp only [UInt32.ofInt, UInt32.toNat_ofNat']
  have hlt := x.toNat_lt
  omega

theorem unsigned_toNat {x : UInt32} : unsigned x.toNat = .u32 x := congrArg Literal.u32 ofInt_toNat

theorem unsigned_sub {x y : UInt32} : unsigned ((x.toNat : Int) - y.toNat) = .u32 (x - y) := by
  rw [unsigned, Int.sub_eq_add_neg, UInt32.ofInt_add, UInt32.ofInt_neg, ofInt_toNat, ofInt_toNat, UInt32.sub_eq_add_neg]

theorem signed_mod {x y : Int32} : signed (x.toInt.tmod y.toInt) = .i32 (x % y) := by
  rw [← signed_toInt, toInt_mod]

theorem signed_shl {x : Int32} :
    signed (x.toInt * 2 ^ (k.toNat % 32)) = .i32 (x.toUInt32 <<< k).toInt32 := by
  have hpow : BitVec.ofInt 32 (2 ^ (k.toNat % 32)) = BitVec.twoPow 32 (k.toNat % 32) := by
    rw [show (2 : Int) ^ (k.toNat % 32) = ((2 ^ (k.toNat % 32) : Nat) : Int) by norm_cast, BitVec.ofInt_natCast]
    exact BitVec.toNat_inj.1 (by rw [BitVec.toNat_twoPow, BitVec.toNat_ofNat])
  refine congrArg Literal.i32 (toBitVec_inj.1 ?_)
  rw [toBitVec_ofInt, BitVec.ofInt_mul, hpow, ← BitVec.shiftLeft_eq_mul_twoPow,
    UInt32.toBitVec_toInt32, UInt32.toBitVec_shiftLeft]
  show BitVec.ofInt 32 x.toBitVec.toInt <<< _ = _
  rw [BitVec.ofInt_toInt]
  rfl

theorem signed_shr {x y : Int32} :
    signed (x.toInt / 2 ^ ((y.toUInt32 &&& 31).toNat % 32)) = .i32 (x >>> (y &&& 31)) := by
  rw [← signed_toInt]
  refine congrArg signed ?_
  show _ = (x >>> (y &&& 31)).toBitVec.toInt
  show _ = (x.toBitVec.sshiftRight' ((y.toBitVec &&& 31#32).smod 32#32)).toInt
  rw [Meaning.masked_smod, BitVec.sshiftRight', BitVec.toInt_sshiftRight, Int.shiftRight_eq_div_pow, Int.natCast_pow]
  rfl

theorem unsigned_shl {x : UInt32} : unsigned (x.toNat * 2 ^ (k.toNat % 32)) = .u32 (x <<< k) := by
  refine congrArg Literal.u32 (UInt32.toNat_inj.1 ?_)
  rw [UInt32.toNat_shiftLeft, Nat.shiftLeft_eq]
  have hcast : (x.toNat : Int) * 2 ^ (k.toNat % 32) = ((x.toNat * 2 ^ (k.toNat % 32) : Nat) : Int) := by norm_cast
  rw [hcast, UInt32.ofInt, UInt32.toNat_ofNat']
  omega

theorem unsigned_shr {x : UInt32} : unsigned (x.toNat / 2 ^ (k.toNat % 32)) = .u32 (x >>> k) := by
  rw [← unsigned_toNat, UInt32.toNat_shiftRight, Nat.shiftRight_eq_div_pow]
  rfl

/-! ## 2. Operators on the device -/

namespace Quantity

theorem infixed_truth {p q : Bool} : infixed op (.truth p) (.truth q) = logical op p q := rfl

theorem exact_comparison {keep : Int → Literal} (hop : op.isComparison) {m n : Int} :
    exact keep op m n = some (.truth (Fold.compare op (some (compare m n)))) := by
  rcases Int.lt_trichotomy m n with h | h | h
  · rw [Int.compare_eq_lt.2 h]
    have hne := Int.ne_of_lt h
    cases op <;> simp_all [BinOp.isComparison, exact, Fold.compare] <;> omega
  · rw [Int.compare_eq_eq.2 h]
    cases op <;> simp_all [BinOp.isComparison, exact, Fold.compare]
  · rw [Int.compare_eq_gt.2 h]
    have hne := Int.ne_of_gt h
    cases op <;> simp_all [BinOp.isComparison, exact, Fold.compare] <;> omega

theorem infixed_comparison_i32 (hop : op.isComparison) {x y : Int32} :
    infixed op (.number (.i32 x)) (.number (.i32 y))
      = some (.truth (Fold.compare op (Fold.order? (.i32 x) (.i32 y)))) := by
  rw [infixed, exact_comparison hop, some_or]
  rfl

theorem infixed_comparison_u32 (hop : op.isComparison) {x y : UInt32} :
    infixed op (.number (.u32 x)) (.number (.u32 y))
      = some (.truth (Fold.compare op (Fold.order? (.u32 x) (.u32 y)))) := by
  have hcompare : compare (x.toNat : Int) y.toNat = compare x.toNat y.toNat := by
    rcases Nat.lt_trichotomy x.toNat y.toNat with h | h | h
    · rw [Nat.compare_eq_lt.2 h, Int.compare_eq_lt.2 (by omega)]
    · rw [Nat.compare_eq_eq.2 h, Int.compare_eq_eq.2 (by omega)]
    · rw [Nat.compare_eq_gt.2 h, Int.compare_eq_gt.2 (by omega)]
  rw [infixed, exact_comparison hop, hcompare, some_or, some_or]
  rfl

theorem infixed_ne_zero_i32 {x : Int32} :
    infixed .ne (.number (.i32 x)) (.number (.i32 0)) = some (.truth (Literal.i32 x).truthy) := by
  have h0 : x.toInt = Int32.toInt 0 ↔ x = 0 := toInt_inj
  simp only [infixed, exact, Literal.truthy]
  cases h : (x != 0) <;> simp_all

theorem infixed_ne_zero_u32 {x : UInt32} :
    infixed .ne (.number (.u32 x)) (.number (.u32 0)) = some (.truth (Literal.u32 x).truthy) := by
  have h0 : (x.toNat : Int) = (UInt32.toNat 0 : Int) ↔ x = 0 := Int.natCast_inj.trans UInt32.toNat_inj
  simp only [infixed, exact, Literal.truthy]
  cases h : (x != 0) <;> simp_all

theorem infixed_i32 (hshift : op ≠ .shl ∧ op ≠ .shr) (hfloor : op ≠ .floorDiv) {x y w : Int32}
    (h : Fold.onI32 op x y = .ok (some w)) :
    infixed op (.number (.i32 x)) (.number (.i32 y)) = some (.number (.i32 w)) := by
  have hy : ∀ z : Int32, z ≠ 0 → z.toInt ≠ 0 := fun z hz h => hz (toInt_inj.1 h)
  cases op with
  | shl => exact absurd rfl hshift.1
  | shr => exact absurd rfl hshift.2
  | floorDiv => exact absurd rfl hfloor
  | mod =>
    by_cases h0 : y = 0
    · simp [Fold.onI32, h0] at h
    · simp only [Fold.onI32, if_neg h0, Except.ok.injEq, Option.some.injEq] at h
      simp only [infixed, exact, if_neg (hy y h0), some_or, signed_mod, h]
  | add | sub | mul | bitAnd | bitOr | bitXor =>
    cases h
    simp [infixed, exact, bitwise, signed, Literal.ofBits]
  | _ => cases h

theorem infixed_u32 (hshift : op ≠ .shl ∧ op ≠ .shr) (hfloor : op ≠ .floorDiv) {x y : UInt32}
    (h : Fold.onU32 op x y = some w) :
    infixed op (.number (.u32 x)) (.number (.u32 y)) = some (.number (.u32 w)) := by
  have hy : ∀ z : UInt32, z ≠ 0 → (z.toNat : Int) ≠ 0 := fun z hz h => hz (UInt32.toNat_inj.1 (Int.natCast_inj.1 h))
  cases op with
  | shl => exact absurd rfl hshift.1
  | shr => exact absurd rfl hshift.2
  | floorDiv => exact absurd rfl hfloor
  | mod =>
    by_cases h0 : y = 0
    · simp [Fold.onU32, h0] at h
    · simp only [Fold.onU32, if_neg h0, Option.some.injEq] at h
      have hmod : (x.toNat : Int).tmod y.toNat = (x % y).toNat := by rw [UInt32.toNat_mod]; rfl
      simp only [infixed, exact, if_neg (hy y h0), some_or, hmod, unsigned_toNat, h]
  | sub =>
    cases h
    simp only [infixed, exact, some_or, unsigned_sub]
  | add | mul | bitAnd | bitOr | bitXor =>
    cases h
    simp [infixed, exact, bitwise, unsigned, Literal.ofBits, ofInt_toNat]
  | _ => cases h

theorem infixed_div_u32 {x y : UInt32} (hy : y ≠ 0) :
    infixed .div (.number (.u32 x)) (.number (.u32 y)) = some (.number (.u32 (x / y))) := by
  have hy' : (y.toNat : Int) ≠ 0 := fun h => hy (UInt32.toNat_inj.1 (Int.natCast_inj.1 h))
  have hdiv : (x.toNat : Int).tdiv y.toNat = (x / y).toNat := by rw [UInt32.toNat_div]; rfl
  simp only [infixed, exact, if_neg hy', some_or, hdiv, unsigned_toNat]

theorem infixed_div_i32 {x y : Int32} (hy : y ≠ 0) :
    infixed .div (.number (.i32 x)) (.number (.i32 y)) = some (.number (.i32 (x / y))) := by
  have hy' : y.toInt ≠ 0 := fun h => hy (toInt_inj.1 h)
  simp only [infixed, exact, if_neg hy', some_or, signed, Meaning.div_eq]

end Quantity

theorem call_floorDivHelper {x y : Int32} (hy : y ≠ 0) :
    floorDivHelper.call (.number (.i32 x)) (.number (.i32 y)) = some (.number (signed (x.toInt.fdiv y.toInt))) := by
  have hmod : Quantity.infixed .mod (.number (.i32 x)) (.number (.i32 y)) = some (.number (.i32 (x % y))) :=
    Quantity.infixed_i32 (by decide) (by decide) (by rw [Fold.onI32, if_neg hy])
  have hsub (q : Int32) : Quantity.infixed .sub (.number (.i32 q)) (.number (.i32 1)) = some (.number (.i32 (q - 1))) :=
    Quantity.infixed_i32 (by decide) (by decide) rfl
  have hlt (z : Int32) : Quantity.infixed .lt (.number (.i32 z)) (.number (.i32 0)) = some (.truth (z < 0)) := by
    simp [Quantity.infixed, Quantity.exact, lt_iff_toInt_lt]
  have hne (z : Int32) : Quantity.infixed .ne (.number (.i32 z)) (.number (.i32 0)) = some (.truth (z != 0)) := by
    rw [Quantity.infixed_ne_zero_i32]
    rfl
  rw [signed, ← Meaning.floor_eq hy]
  simp only [floorDivHelper, Helper.call, Calculation.Step.run, Calculation.value, bind_some, if_true,
    Quantity.infixed_div_i32 hy, hmod, hsub, hlt, hne, Quantity.infixed_truth, Quantity.logical,
      String.reduceEq, if_false]
  cases x % y != 0 && decide (x < 0) != decide (y < 0) <;> rfl

/-! ## 3. Expressions of constants -/

namespace Calculation

def ofLiterals (op : BinOp) (x y : Literal) (operand result : Scalar) : Calculation :=
  ofBinary op (.literal x) (.literal y) operand result

theorem onDevice_comparison (hop : op.isComparison) (hs : s ≠ .f32)
    (hx : x.scalar = s) (hy : y.scalar = s) :
    (ofLiterals op x y s result).onDevice
      = some (.number ((Literal.ofBool (Fold.compare op (Fold.order? x y))).cast result)) := by
  have hform : ofLiterals op x y s result = .convert result (.infixed op (.literal x) (.literal y)) := by
    cases op <;> first | rfl | cases hop
  have hvalue : Quantity.infixed op (.number x) (.number y) = some (.truth (Fold.compare op (Fold.order? x y))) := by
    subst hx
    cases x with
    | i32 x =>
      cases y <;> cases hy
      exact Quantity.infixed_comparison_i32 hop
    | u32 x =>
      cases y <;> cases hy
      exact Quantity.infixed_comparison_u32 hop
    | f32 x => exact absurd rfl hs
  simp only [hform, onDevice, value, bind_some, hvalue, map_some, Quantity.convert]

attribute [local simp] ofLiterals ofBinary BinOp.isComparison BinOp.isLogical onDevice value

theorem onDevice_logical (hop : op.isLogical) (hs : s ≠ .f32) (hx : x.scalar = s)
    (hy : y.scalar = s) : (ofLiterals op x y s result).onDevice =
      some (.number ((Literal.ofBool
        (if op = .logicalAnd then x.truthy && y.truthy else x.truthy || y.truthy)).cast result)) := by
  have hzero : ∀ z : Literal, z.scalar = s →
      Quantity.infixed .ne (.number z) (.number ((Literal.i32 0).cast s)) = some (.truth z.truthy) := by
    rintro (z | z | z) rfl
    · exact Quantity.infixed_ne_zero_i32
    · exact Quantity.infixed_ne_zero_u32
    · exact absurd rfl hs
  cases op with
  | logicalAnd | logicalOr =>
    simp [hzero x hx, hzero y hy, Quantity.infixed_truth, Quantity.logical, Quantity.convert]
  | _ => cases hop

theorem onDevice_shift (hop : op = .shl ∨ op = .shr) (hk : y.cast .u32 = .u32 k) :
    (ofLiterals op x y s result).onDevice = Quantity.infixed op (.number x) (.number (.u32 (k &&& 31))) := by
  have hmask : Quantity.infixed .bitAnd (.number (.u32 k)) (.number (.u32 31)) = some (.number (.u32 (k &&& 31))) :=
    Quantity.infixed_u32 (by decide) (by decide) rfl
  rcases hop with rfl | rfl <;> simp [Quantity.convert, hk, hmask]

theorem onDevice_floorDiv {x y : Int32} :
    (ofLiterals .floorDiv (.i32 x) (.i32 y) .i32 result).onDevice = floorDivHelper.call
      (.number (.i32 x)) (.number (.i32 y)) := by
  simp

theorem onDevice_i32 {x y w : Int32} (h : Fold.onI32 op x y = .ok (some w)) :
    (ofLiterals op (.i32 x) (.i32 y) .i32 result).onDevice = some (.number (.i32 w)) := by
  cases op with
  | shl =>
    cases h
    rw [onDevice_shift (.inl rfl) rfl, ← signed_shl]
    rfl
  | shr =>
    cases h
    rw [onDevice_shift (.inr rfl) rfl, ← signed_shr]
    rfl
  | floorDiv =>
    by_cases hy : y = 0
    · simp [Fold.onI32, hy] at h
    · rw [Fold.onI32, if_neg hy, Meaning.floorDiv_eq hy] at h
      split at h
      · cases h
      · cases h
        rw [onDevice_floorDiv, call_floorDivHelper hy]
        rfl
  | mod | add | sub | mul | bitAnd | bitOr | bitXor =>
    have hvalue := Quantity.infixed_i32 (by decide) (by decide) h
    simp [hvalue]
  | _ => cases h

theorem onDevice_u32 {x y : UInt32} (h : Fold.onU32 op x y = some w) :
    (ofLiterals op (.u32 x) (.u32 y) .u32 result).onDevice = some (.number (.u32 w)) := by
  cases op with
  | shl =>
    cases h
    rw [onDevice_shift (.inl rfl) rfl, ← unsigned_shl]
    rfl
  | shr =>
    cases h
    rw [onDevice_shift (.inr rfl) rfl, ← unsigned_shr]
    rfl
  | floorDiv =>
    by_cases hy : y = 0
    · simp [Fold.onU32, hy] at h
    · simp only [Fold.onU32, if_neg hy, Option.some.injEq] at h
      have hvalue := Quantity.infixed_div_u32 (x := x) hy
      simp [hvalue, h]
  | mod | add | sub | mul | bitAnd | bitOr | bitXor =>
    have hvalue := Quantity.infixed_u32 (by decide) (by decide) h
    simp [hvalue]
  | _ => cases h

end Calculation

end Shader

/-! ## 4. Where folding gives no value -/

namespace Fold

open Shader

variable {e : Overflow} {operand result : Scalar} {a b : Literal}

theorem onI32_error_iff {x y : Int32} :
    onI32 op x y = .error e ↔ op = .floorDiv ∧ x = Int32.minValue ∧ y = -1 := by
  cases op with
  | floorDiv =>
    by_cases hy : y = 0
    · simp [onI32, hy]
    · rw [onI32, if_neg hy, floorDiv, remainder]
      split <;> simp_all [Except.map]
  | _ => simp [onI32]

/-- The operators that are not of integers, and division by zero. -/
def LeftToDevice (op : BinOp) (divisor : Literal) : Prop :=
  op = .div ∨ op = .pow ∨ op = .matMul ∨ (op = .mod ∨ op = .floorDiv) ∧ (divisor = .i32 0 ∨ divisor = .u32 0)

theorem onI32_none_iff {x y : Int32} (hc : op.isComparison = false) (hl : op.isLogical = false) :
    onI32 op x y = .ok none ↔ LeftToDevice op (.i32 y) := by
  unfold LeftToDevice
  cases op with
  | floorDiv =>
    by_cases hy : y = 0
    · simp [onI32, hy]
    · rw [onI32, if_neg hy, floorDiv, remainder]
      split <;> simp_all [Except.map]
  | mod => by_cases hy : y = 0 <;> simp [onI32]
  | _ => simp_all [onI32, BinOp.isComparison, BinOp.isLogical]

theorem onU32_none_iff {x y : UInt32} (hc : op.isComparison = false) (hl : op.isLogical = false) :
    onU32 op x y = none ↔ LeftToDevice op (.u32 y) := by
  unfold LeftToDevice
  cases op with
  | floorDiv | mod => by_cases hy : y = 0 <;> simp [onU32]
  | _ => simp_all [onU32, BinOp.isComparison, BinOp.isLogical]

theorem arithmetic_error_iff :
    arithmetic op x y = .error e ↔ op = .floorDiv ∧ x = .i32 Int32.minValue ∧ y = .i32 (-1) := by
  cases x <;> cases y <;> try simp [arithmetic]
  rename_i x y
  rw [← onI32_error_iff (e := e)]
  cases onI32 op x y <;> simp [Except.map]

theorem arithmetic_none_iff (hc : op.isComparison = false) (hl : op.isLogical = false)
    (hs : s ≠ .f32) (hx : x.scalar = s) (hy : y.scalar = s) :
    arithmetic op x y = .ok none ↔ LeftToDevice op y := by
  subst hx
  cases x with
  | i32 x =>
    cases y <;> cases hy
    rename_i y
    rw [← onI32_none_iff hc hl, arithmetic]
    cases onI32 op x y <;> simp [Except.map]
  | u32 x =>
    cases y <;> cases hy
    rw [← onU32_none_iff (x := x) hc hl, arithmetic]
    simp
  | f32 x => exact absurd rfl hs

theorem onDevice_arithmetic {w : Literal} (hs : s ≠ .f32) (hx : x.scalar = s)
    (hy : y.scalar = s) (h : arithmetic op x y = .ok (some w)) :
    (Calculation.ofLiterals op x y s result).onDevice = some (.number w) ∧ w.scalar = s := by
  subst hx
  cases x with
  | i32 x =>
    cases y <;> cases hy
    rename_i y
    rw [arithmetic] at h
    rcases hv : onI32 op x y with e | _ | v <;> rw [hv] at h <;> cases h
    exact ⟨Calculation.onDevice_i32 hv, rfl⟩
  | u32 x =>
    cases y <;> cases hy
    rw [arithmetic, Except.ok.injEq] at h
    obtain ⟨v, hv, rfl⟩ := map_eq_some_iff.1 h
    exact ⟨Calculation.onDevice_u32 hv, rfl⟩
  | f32 x => exact absurd rfl hs

theorem binary_arithmetic (hc : op.isComparison = false) (hl : op.isLogical = false) :
    binary op a b operand result = (arithmetic op (a.cast operand) (b.cast operand)).map (·.map (·.cast result)) := by
  simp [binary, hc, hl]

theorem binary_truth (hop : op.isComparison = true ∨ op.isLogical = true) (ho : operand ≠ .f32) :
    ∃ p : Bool, binary op a b operand result = .ok (some ((Literal.ofBool p).cast result)) ∧
      (Calculation.ofLiterals op (a.cast operand) (b.cast operand) operand result).onDevice =
        some (.number ((Literal.ofBool p).cast result)) := by
  have hx := Literal.scalar_cast a operand
  have hy := Literal.scalar_cast b operand
  by_cases hc : op.isComparison = true
  · exact ⟨_, by simp only [binary, hc, if_true], Calculation.onDevice_comparison hc ho hx hy⟩
  · have hl : op.isLogical = true := hop.resolve_left hc
    refine ⟨_, ?_, Calculation.onDevice_logical hl ho hx hy⟩
    simp only [binary, hc, hl, if_true, if_false, Bool.false_eq_true]

theorem binary_error_iff (ho : operand ≠ .f32) : binary op a b operand result = .error e ↔
      op = .floorDiv ∧ a.cast operand = .i32 Int32.minValue ∧ b.cast operand = .i32 (-1) := by
  by_cases hop : op.isComparison = true ∨ op.isLogical = true
  · obtain ⟨p, hp, -⟩ := binary_truth hop ho
    rw [hp]
    refine ⟨nofun, ?_⟩
    rintro ⟨rfl, -, -⟩
    exact absurd hop (by decide)
  · simp only [not_or, Bool.not_eq_true] at hop
    rw [binary_arithmetic hop.1 hop.2, ← arithmetic_error_iff (e := e)]
    cases arithmetic op (a.cast operand) (b.cast operand) <;> simp [Except.map]

theorem binary_none_iff (ho : operand ≠ .f32) :
    binary op a b operand result = .ok none ↔ LeftToDevice op (b.cast operand) := by
  by_cases hop : op.isComparison = true ∨ op.isLogical = true
  · obtain ⟨p, hp, -⟩ := binary_truth hop ho
    rw [hp]
    refine ⟨nofun, ?_⟩
    rintro (rfl | rfl | rfl | ⟨rfl | rfl, -⟩) <;> exact absurd hop (by decide)
  · simp only [not_or, Bool.not_eq_true] at hop
    rw [binary_arithmetic hop.1 hop.2,
      ← arithmetic_none_iff hop.1 hop.2 ho (Literal.scalar_cast a operand) (Literal.scalar_cast b operand)]
    rcases arithmetic op (a.cast operand) (b.cast operand) with e | _ | v <;> simp [Except.map]

theorem binary_some {v : Literal} (ho : operand ≠ .f32)
    (h : binary op a b operand result = .ok (some v)) :
    ∃ w, (Calculation.ofLiterals op (a.cast operand) (b.cast operand) operand result).onDevice = some (.number w) ∧
      v = w.cast result ∧ w.scalar = if op.isComparison || op.isLogical then result else operand := by
  by_cases hop : op.isComparison = true ∨ op.isLogical = true
  · obtain ⟨p, hp, hdevice⟩ := binary_truth hop ho
    rw [hp, Except.ok.injEq, Option.some.injEq] at h
    refine ⟨_, hdevice, ?_, ?_⟩
    · rw [← h]
      cases result <;> rfl
    · rw [if_pos (by simpa using hop), Literal.scalar_cast]
  · simp only [not_or, Bool.not_eq_true] at hop
    rw [binary_arithmetic hop.1 hop.2] at h
    rcases hw : arithmetic op (a.cast operand) (b.cast operand) with e | _ | w <;> rw [hw] at h <;> cases h
    obtain ⟨hdevice, hs⟩ := onDevice_arithmetic ho (Literal.scalar_cast a operand) (Literal.scalar_cast b operand) hw
    exact ⟨w, hdevice, rfl, by simp [hop, hs]⟩

end Fold

/-! ## 5. Folding and the device -/

open Shader

/-- A quotient on the device is the floor of the exact one, reduced to 32 bits. -/
theorem onDevice_floor (hs : s ≠ .f32) (hx : x.scalar = s) (hy : y.scalar = s) {m n : Int}
    (hm : x.toInt? = some m) (hn : y.toInt? = some n) (h0 : n ≠ 0) (result : Scalar) :
    (Calculation.ofLiterals .floorDiv x y s result).onDevice =
      some (.number (if s = .i32 then signed (m.fdiv n) else unsigned (m.fdiv n))) := by
  subst hx
  cases x with
  | i32 x =>
    cases y <;> cases hy
    rename_i y
    cases hm
    cases hn
    have hy : y ≠ 0 := fun h => h0 (by rw [h]; rfl)
    exact Calculation.onDevice_floorDiv.trans (call_floorDivHelper hy)
  | u32 x =>
    cases y <;> cases hy
    rename_i y
    cases hm
    cases hn
    have hy : y ≠ 0 := fun h => h0 (by rw [h]; rfl)
    have hfold : Fold.onU32 .floorDiv x y = some (x / y) := by rw [Fold.onU32, if_neg hy]
    have hdiv : (x.toNat : Int).fdiv y.toNat = (x / y).toNat := by
      rw [UInt32.toNat_div, Int.fdiv_eq_ediv_of_nonneg _ (Int.natCast_nonneg _)]
      rfl
    rw [hdiv, unsigned_toNat]
    exact Calculation.onDevice_u32 hfold
  | f32 x => exact absurd rfl hs

/-- Folding an operator on integers computes what a shader computes.

Both constants are converted to the type of the operands. Folding gives up exactly at the least integer divided toward the
floor by minus one, and gives no value exactly for operators that are not of integers and for a zero divisor. In all other
cases its value is that of the expression which stands in the shader for the same constants, converted to the type of the
result; the texts are those of the expression and of the function that it may call. Division toward the floor gives the
floor of the exact quotient. -/
theorem fold_computes (op : BinOp) (a b : Literal) {operand : Scalar} (result : Scalar)
    (ho : operand ≠ .f32) : let x := a.cast operand
    let y := b.cast operand
    let e := Calculation.ofLiterals op x y operand result
    (Fold.binary op a b operand result = .error .remainder ↔
      op = .floorDiv ∧ x = .i32 Int32.minValue ∧ y = .i32 (-1)) ∧
    (Fold.binary op a b operand result = .ok none ↔ Fold.LeftToDevice op y) ∧
    (∀ v, Fold.binary op a b operand result = .ok (some v) →
      ∃ w, e.onDevice = some (.number w) ∧ v = w.cast result ∧
        w.scalar = if op.isComparison || op.isLogical then result else operand) ∧
    e.text = binaryExpr op x.shaderText y.shaderText (.scalar operand) (.scalar result) ∧
    floorDivHelper.text = floorDivSource ∧
    (op = .floorDiv → ∀ m n, x.toInt? = some m → y.toInt? = some n → n ≠ 0 →
      e.onDevice = some (.number (if operand = .i32 then signed (m.fdiv n) else unsigned (m.fdiv n)))) := by
  intro x y e
  have hx : x.scalar = operand := Literal.scalar_cast a operand
  have hy : y.scalar = operand := Literal.scalar_cast b operand
  refine ⟨Fold.binary_error_iff ho, Fold.binary_none_iff ho, fun v hv => Fold.binary_some ho hv, ?_,
    text_floorDivHelper, ?_⟩
  · exact Calculation.text_ofBinary op (.literal x) (.literal y) result ho
  · rintro rfl m n hm hn h0
    exact onDevice_floor ho hx hy hm hn h0 result

/-- The quotient of a negative number is rounded down, also when the number comes without a sign. -/
theorem fold_computes_floor :
    Scalar.i32 ≠ .f32 ∧ Fold.binary .floorDiv (.u32 4294967289) (.i32 2) .i32 .i32 = .ok (some (.i32 (-4))) ∧
      ∃ w, (Calculation.ofLiterals .floorDiv (.i32 (-7)) (.i32 2) .i32 .i32).onDevice
        = some (.number w) ∧ .i32 (-4) = w.cast .i32 := by
  have hfold : Fold.binary .floorDiv (.u32 4294967289) (.i32 2) .i32 .i32 = .ok (some (.i32 (-4))) := by decide
  obtain ⟨w, hw, hv, -⟩ := (fold_computes .floorDiv (.u32 4294967289) (.i32 2) .i32 (by decide)).2.2.1 _ hfold
  exact ⟨by decide, hfold, w, hw, hv⟩

/-- The device divides the least integer by minus one, and folding does not. -/
theorem fold_gives_up :
    Fold.binary .floorDiv (.i32 Int32.minValue) (.i32 (-1)) .i32 .i32 = .error .remainder ∧
      (Calculation.ofLiterals .floorDiv (.i32 Int32.minValue) (.i32 (-1)) .i32 .i32).onDevice =
        some (.number (.i32 Int32.minValue)) := by
  decide

end ArrayKernel
