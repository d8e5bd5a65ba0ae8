import ArrayKernel.IR.Fold
import ArrayKernel.Intrinsic.Table

/-!
# What the operators mean on 32-bit integers

Sums, differences and products wrap, a shift looks at the low five bits of its amount, and a
remainder has the sign of the dividend. What dividing by zero gives is the parameter `zero`.
-/

namespace ArrayKernel.Meaning

open Surface Int32

/-! ## 1. The operators -/

/-- What an operator gives for a dividend when the divisor is zero. -/
abbrev ByZero := BinOp → Int32 → Int32

def truth (p : Prop) [Decidable p] : Int32 := if p then 1 else 0

def binary (zero : ByZero) (op : BinOp) (x y : Int32) : Option Int32 :=
  match op with
  | .logicalOr => some (truth (x ≠ 0 ∨ y ≠ 0))
  | .logicalAnd => some (truth (x ≠ 0 ∧ y ≠ 0))
  | .bitOr => some (x ||| y)
  | .bitXor => some (x ^^^ y)
  | .bitAnd => some (x &&& y)
  | .eq => some (truth (x = y))
  | .ne => some (truth (x ≠ y))
  | .lt => some (truth (x < y))
  | .le => some (truth (x ≤ y))
  | .gt => some (truth (y < x))
  | .ge => some (truth (y ≤ x))
  | .shl => some (x <<< (y &&& 31))
  | .shr => some (x >>> (y &&& 31))
  | .add => some (x + y)
  | .sub => some (x - y)
  | .mul => some (x * y)
  | .mod => some (if y = 0 then zero .mod x else x % y)
  | .floorDiv => some (if y = 0 then zero .floorDiv x else .ofInt (x.toInt.fdiv y.toInt))
  | .div | .pow | .matMul => none

def unary (op : UnOp) (x : Int32) : Int32 :=
  match op with
  | .neg => -x
  | .plus => x
  | .not => truth (x = 0)
  | .bitNot => ~~~x

/-- The value of an operator of the representation on one integer, if it stays among the integers.
-/
def unaryOp (op : UnaryOp) (x : Int32) : Option Int32 :=
  match op with
  | .neg => some (unary .neg x)
  | .not => some (unary .not x)
  | .bitNot => some (unary .bitNot x)
  | .cast _ | .bitcast _ => none

def update (kind : AtomicKind) (x y : Int32) : Int32 :=
  match kind with
  | .add => x + y
  | .sub => x - y
  | .min => if x ≤ y then x else y
  | .max => if x ≤ y then y else x
  | .and => x &&& y
  | .or => x ||| y
  | .xor => x ^^^ y

/-! ## 2. Folding computes these values -/

theorem order_cases {x y : Int32} :
    (x < y ∧ compare x.toInt y.toInt = .lt) ∨ (x = y ∧ compare x.toInt y.toInt = .eq)
      ∨ (y < x ∧ compare x.toInt y.toInt = .gt) := by
  rcases Int.lt_trichotomy x.toInt y.toInt with h | h | h
  · exact .inl ⟨lt_iff_toInt_lt.2 h, Int.compare_eq_lt.2 h⟩
  · exact .inr (.inl ⟨toInt_inj.1 h, Int.compare_eq_eq.2 h⟩)
  · exact .inr (.inr ⟨lt_iff_toInt_lt.2 h, Int.compare_eq_gt.2 h⟩)

theorem compare_eq {zero : ByZero} {op : BinOp} (hop : op.isComparison) {x y : Int32} :
    binary zero op x y = some (if Fold.compare op (some (compare x.toInt y.toInt)) then 1 else 0) := by
  rcases order_cases with ⟨h, ho⟩ | ⟨h, ho⟩ | ⟨h, ho⟩ <;> rw [ho]
  · have hne : x ≠ y := Int32.ne_of_lt h
    cases op <;> simp_all [BinOp.isComparison, binary, truth, Fold.compare, Int32.le_of_lt, Int32.not_lt]
  · subst h
    cases op <;> simp_all [BinOp.isComparison, binary, truth, Fold.compare]
  · have hne : x ≠ y := (Int32.ne_of_lt h).symm
    cases op <;> simp_all [BinOp.isComparison, binary, truth, Fold.compare, Int32.le_of_lt, Int32.not_lt]

/-- A masked amount is not negative, so it does not matter in which way its remainder is taken. -/
theorem masked_smod (v : BitVec 32) : (v &&& 31#32).smod 32#32 = (v &&& 31#32) % 32#32 := by
  have hlt : (v &&& 31#32).toNat < 32 := by
    exact Nat.lt_of_le_of_lt Nat.and_le_right (by decide)
  have hmsb : (v &&& 31#32).msb = false := by
    rw [BitVec.msb_eq_false_iff_two_mul_lt]
    omega
  have h32 : (32#32).msb = false := by decide
  rw [BitVec.smod_eq, hmsb, h32]
  rfl

theorem shl_eq {x y : Int32} : (x.toUInt32 <<< (y.toUInt32 &&& 31)).toInt32 = x <<< (y &&& 31) := by
  apply Int32.toBitVec_inj.1
  show _ <<< _ = x.toBitVec <<< (y.toBitVec &&& 31#32).smod 32#32
  rw [masked_smod]
  rfl

theorem div_eq (x y : Int32) : x / y = .ofInt (x.toInt.tdiv y.toInt) := by
  apply toInt_inj.1
  rw [toInt_div, toInt_ofInt]

/-- Rounding down differs from rounding toward zero where the signs differ and the division leaves a
remainder. -/
theorem floor_eq {x y : Int32} (hy : y ≠ 0) :
    (if x % y != 0 && (x < 0) != (y < 0) then x / y - 1 else x / y) = .ofInt (x.toInt.fdiv y.toInt) := by
  have hmod : x % y = 0 ↔ y.toInt ∣ x.toInt := by
    rw [← toInt_inj, toInt_mod, Int.dvd_iff_tmod_eq_zero]
    rfl
  have hneg : ∀ z : Int32, z < 0 ↔ ¬ 0 ≤ z.toInt := fun z => by
    rw [lt_iff_toInt_lt, toInt_zero, Int.not_le]
  rw [Int.fdiv_eq_tdiv]
  by_cases hd : y.toInt ∣ x.toInt
  · simp [hmod.2 hd, hd, div_eq]
  · have hm : x % y ≠ 0 := fun h => hd (hmod.1 h)
    rcases Int.lt_trichotomy y.toInt 0 with h | h | h
    · have hs := Int.sign_eq_neg_one_of_neg h
      by_cases h0 : 0 ≤ x.toInt <;>
        simp [hm, hd, hneg, h0, hs, Int.not_le.2 h, div_eq]
    · exact absurd (toInt_inj.1 h) hy
    · have hs := Int.sign_eq_one_of_pos h
      by_cases h0 : 0 ≤ x.toInt <;>
        simp [hm, hd, hneg, h0, hs, Int.le_of_lt h, div_eq]

theorem floorDiv_eq {x y : Int32} (hy : y ≠ 0) :
    Fold.floorDiv x y =
      if x = Int32.minValue ∧ y = -1 then .error .remainder else .ok (.ofInt (x.toInt.fdiv y.toInt)) := by
  rw [← floor_eq hy]
  unfold Fold.floorDiv Fold.remainder
  split <;> rfl

theorem binary_of_fold (zero : ByZero) {op : BinOp} {x y : Int32} {v : Literal}
    (h : Fold.binary op (.i32 x) (.i32 y) .i32 .i32 = .ok (some v)) :
    ∃ w, v = .i32 w ∧ binary zero op x y = some w := by
  unfold Fold.binary at h
  simp only [Literal.cast, Fold.order?] at h
  split at h
  · rename_i hop
    rw [compare_eq hop]
    cases h
    exact ⟨_, rfl, rfl⟩
  · split at h
    · cases op <;> simp_all [BinOp.isLogical, Literal.truthy, binary, truth, Literal.ofBool]
    · cases op with
      | mod =>
        -- by zero it is not folded
        by_cases hy : y = 0
        · simp [Fold.arithmetic, Fold.onI32, hy, Except.map] at h
        · simp only [Fold.arithmetic, Fold.onI32, if_neg hy, Except.map, Option.map_some,
            Except.ok.injEq, Option.some.injEq] at h
          exact ⟨_, h.symm, by simp [binary, hy]⟩
      | floorDiv =>
        by_cases hy : y = 0
        · simp [Fold.arithmetic, Fold.onI32, hy, Except.map] at h
        · simp only [Fold.arithmetic, Fold.onI32, if_neg hy, floorDiv_eq hy] at h
          split at h
          · cases h
          · simp only [Except.map, Option.map_some, Except.ok.injEq, Option.some.injEq] at h
            exact ⟨_, h.symm, by simp [binary, hy]⟩
      | _ => simp_all [BinOp.isComparison, BinOp.isLogical, Fold.arithmetic, Fold.onI32, binary, shl_eq, Except.map]

theorem unaryOp_of_fold {op : UnaryOp} {x w : Int32} {v : Literal}
    (h : Fold.unary op (.i32 x) = some v) (hw : unaryOp op x = some w) : v = .i32 w := by
  cases op <;> simp_all [Fold.unary, unaryOp, unary, Literal.ofBool, Literal.truthy, truth]

end ArrayKernel.Meaning
