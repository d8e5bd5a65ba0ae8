import ArrayKernel.Proofs.Text.Characters
import Mathlib.Algebra.Order.Field.Power
import Mathlib.Data.Rat.Cast.Order
import Mathlib.Tactic.Linarith
import Mathlib.Tactic.Positivity
import Mathlib.Tactic.Ring

/-!
# The shortest digits of a number

For single precision the search for the shortest digits ends on a grid that is finer than the
interval which rounds to the number (`Format.holds_shortest`). No two intervals meet, so the digits
tell the number (`Format.eq_of_rounds`).
-/

namespace ArrayKernel.Number

/-! ## 1. Intervals -/

theorem pow_toNat_eq {b : ℚ} (hb : b ≠ 0) (e : Int) : b ^ e.toNat = b ^ e * b ^ (-e).toNat := by
  rw [← zpow_natCast, ← zpow_natCast, ← zpow_add₀ hb]
  congr 1
  omega

def Digits.value (d : Digits) : ℚ :=
  d.digits * 10 ^ (d.exponent + 1 - (Nat.toDigits 10 d.digits).length)

namespace Rounds

variable {r : Rounds} {n : Nat} {e : Int}

structure Holds (r : Rounds) (x : ℚ) : Prop where
  low : (r.low : ℚ) ≤ x * r.unit
  high : x * r.unit ≤ r.high
  inside : r.closed = false → (r.low : ℚ) < x * r.unit ∧ x * r.unit < r.high

theorem has_iff : r.has n e = true ↔ r.Holds (n * 10 ^ e) := by
  have hscale : (0 : ℚ) < 10 ^ (-e).toNat := by positivity
  have hx : ((n * 10 ^ e.toNat * r.unit : Nat) : ℚ) = n * 10 ^ e * r.unit * 10 ^ (-e).toNat := by
    push_cast
    rw [pow_toNat_eq (by norm_num) e]
    ring
  have hle (a : Nat) : a * 10 ^ (-e).toNat ≤ n * 10 ^ e.toNat * r.unit ↔ (a : ℚ) ≤ n * 10 ^ e * r.unit := by
    rw [← Nat.cast_le (α := ℚ), hx]
    push_cast
    exact mul_le_mul_iff_left₀ hscale
  have hge (a : Nat) : n * 10 ^ e.toNat * r.unit ≤ a * 10 ^ (-e).toNat ↔ (n * 10 ^ e * r.unit : ℚ) ≤ a := by
    rw [← Nat.cast_le (α := ℚ), hx]
    push_cast
    exact mul_le_mul_iff_left₀ hscale
  unfold Rounds.has
  split
  · rename_i hclosed
    rw [Bool.and_eq_true, decide_eq_true_eq, decide_eq_true_eq, hle, hge]
    exact ⟨fun h => ⟨h.1, h.2, fun hopen => absurd hclosed (by simp [hopen])⟩, fun h => ⟨h.low, h.high⟩⟩
  · rename_i hopen
    rw [Bool.and_eq_true, decide_eq_true_eq, decide_eq_true_eq, ← not_le, ← not_le, hle, hge, not_le, not_le]
    exact ⟨fun h => ⟨h.1.le, h.2.le, fun _ => h⟩, fun h => h.inside (by simpa using hopen)⟩

/-! ## 2. Grids -/

theorem onGrid_hit (h : r.onGrid e = some n) : r.has n e = true ∧ 0 < n := by
  unfold onGrid at h
  extract_lets step scale below rest at h
  split at h
  · rename_i hbelow habove
    simp only [Bool.and_eq_true, bne_iff_ne] at hbelow
    cases h
    split
    · exact ⟨hbelow.1, pos_of_ne_zero hbelow.2⟩
    · exact ⟨habove, Nat.succ_pos _⟩
  · rename_i hbelow _
    simp only [Bool.and_eq_true, bne_iff_ne] at hbelow
    rw [← Option.some.inj h]
    exact ⟨hbelow.1, pos_of_ne_zero hbelow.2⟩
  · rename_i habove
    cases h
    exact ⟨habove, Nat.succ_pos _⟩
  · cases h

/-- A grid whose step is less than the distance to the upper end has a hit. -/
theorem onGrid_fine (hunit : 0 < r.unit) (hlow : r.low ≤ r.value)
    (hfine : 10 ^ e.toNat * r.unit + r.value * 10 ^ (-e).toNat < r.high * 10 ^ (-e).toNat) :
    ∃ n, r.onGrid e = some n := by
  have hstep : 0 < 10 ^ e.toNat * r.unit := Nat.mul_pos (Nat.pow_pos (by decide)) hunit
  have habove : r.has (r.value * 10 ^ (-e).toNat / (10 ^ e.toNat * r.unit) + 1) e = true := by
    let step := 10 ^ e.toNat * r.unit
    let v := r.value * 10 ^ (-e).toNat
    have hlt : v < (v / step + 1) * step := by
      have := Nat.lt_div_mul_add (a := v) hstep
      rw [add_mul, one_mul]
      exact this
    have hle : (v / step + 1) * step ≤ v + step := by
      rw [add_mul, one_mul]
      exact Nat.add_le_add_right (Nat.div_mul_le_self v step) step
    have hscale : r.low * 10 ^ (-e).toNat ≤ v := Nat.mul_le_mul_right _ hlow
    have hassoc : (v / step + 1) * 10 ^ e.toNat * r.unit = (v / step + 1) * step := mul_assoc _ _ _
    unfold has
    rw [show (r.value * 10 ^ (-e).toNat / (10 ^ e.toNat * r.unit) + 1) * 10 ^ e.toNat * r.unit =
      (v / step + 1) * step from hassoc]
    split
    · rw [Bool.and_eq_true, decide_eq_true_eq, decide_eq_true_eq]
      exact ⟨by omega, by omega⟩
    · rw [Bool.and_eq_true, decide_eq_true_eq, decide_eq_true_eq]
      exact ⟨by omega, by omega⟩
  unfold onGrid
  extract_lets step scale below rest
  rw [show r.has (below + 1) e = true from habove]
  split
  · exact ⟨_, rfl⟩
  · rename_i heq
    cases heq
  · exact ⟨_, rfl⟩
  · rename_i heq
    cases heq

theorem search_hit {top : Int} (count : Nat) {grids i : Nat} (hi : i < grids)
    (h : ∃ n, r.onGrid (top - (count + i : Nat)) = some n) :
    r.onGrid (r.search top count grids).2 = some (r.search top count grids).1 := by
  induction grids generalizing count i with
  | zero => omega
  | succ grids ih =>
    unfold search
    dsimp only
    cases hgrid : r.onGrid (top - count) with
    | some n => exact hgrid
    | none =>
      cases i with
      | zero =>
        obtain ⟨n, hn⟩ := h
        rw [add_zero, hgrid] at hn
        cases hn
      | succ i => exact ih (count + 1) (Nat.lt_of_succ_lt_succ hi) (by rwa [Nat.succ_add_eq_add_succ])

end Rounds

/-! ## 3. Intervals of two numbers -/

namespace Format

variable {f : Format} {m m1 m2 n : Nat} {q q1 q2 : Int} {x : ℚ}

/-- The magnitudes of a format that are no zero. Only the least scale has significands that are not
full. -/
structure IsMagnitude (f : Format) (m : Nat) (q : Int) : Prop where
  pos : 0 < m
  lt : m < 2 ^ (f.fractionBits + 1)
  least : f.leastScale ≤ q
  full : f.leastScale < q → 2 ^ f.fractionBits ≤ m

/-- The lower end of the interval of a magnitude, which is nearer where the scale below is finer. -/
def lowEnd (f : Format) (m : Nat) (q : Int) : ℚ :=
  (if m = 2 ^ f.fractionBits ∧ f.leastScale < q then (m - 1 / 4 : ℚ) else m - 1 / 2) * 2 ^ q

theorem holds_bounds (hm : 0 < m) (h : (f.rounds m q).Holds x) :
    (f.lowEnd m q ≤ x ∧ x ≤ (m + 1 / 2) * 2 ^ q)
      ∧ (m % 2 = 1 → f.lowEnd m q < x ∧ x < (m + 1 / 2) * 2 ^ q) := by
  let u : ℚ := 2 ^ (-(q - 2)).toNat
  have hu : 0 < u := by positivity
  have hq : (2 : ℚ) ^ (q - 2).toNat = 2 ^ q / 4 * u := by
    rw [pow_toNat_eq (by norm_num) (q - 2), zpow_sub₀ (by norm_num)]
    norm_num [u]
  have hunit : ((f.rounds m q).unit : ℚ) = u := by simp [rounds, scaled, u]
  have hhigh : ((f.rounds m q).high : ℚ) = (m + 1 / 2) * 2 ^ q * u := by
    simp only [rounds, scaled]
    push_cast
    rw [hq]
    ring
  have hlow : ((f.rounds m q).low : ℚ) = f.lowEnd m q * u := by
    have hle : 2 * 2 ^ (q - 2).toNat ≤ 4 * m * 2 ^ (q - 2).toNat := Nat.mul_le_mul_right _ (by omega)
    simp only [lowEnd, rounds, scaled, Bool.and_eq_true, decide_eq_true_eq]
    split
    · rw [Nat.cast_sub (by omega)]
      push_cast
      rw [hq]
      ring
    · rw [Nat.cast_sub hle]
      push_cast
      rw [hq]
      ring
  obtain ⟨h1, h2, h3⟩ := h
  rw [hunit, hlow] at h1 h3
  rw [hunit, hhigh] at h2
  rw [hhigh] at h3
  refine ⟨⟨le_of_mul_le_mul_right h1 hu, le_of_mul_le_mul_right h2 hu⟩, fun hodd => ?_⟩
  have hopen : (f.rounds m q).closed = false := by simp [rounds, hodd]
  exact ⟨lt_of_mul_lt_mul_right (h3 hopen).1 hu.le, lt_of_mul_lt_mul_right (h3 hopen).2 hu.le⟩

/-- No decimal rounds to two magnitudes, of which the first is the lesser. -/
theorem rounds_apart (h1 : f.IsMagnitude m1 q1) (h2 : f.IsMagnitude m2 q2)
    (hlt : q1 < q2 ∨ q1 = q2 ∧ m1 < m2) (hx1 : (f.rounds m1 q1).Holds x) :
    ¬ (f.rounds m2 q2).Holds x := by
  intro hx2
  obtain ⟨⟨-, hle1⟩, hodd1⟩ := holds_bounds h1.pos hx1
  obtain ⟨⟨hle2, -⟩, hodd2⟩ := holds_bounds h2.pos hx2
  have hunit : (0 : ℚ) < 2 ^ q1 := by positivity
  rcases hlt with hq | ⟨rfl, hm⟩
  · -- the upper one is full, so that its interval starts above every smaller scale
    have hfull := h2.full (h1.least.trans_lt hq)
    have hstep : (2 : ℚ) ^ q1 * 2 ≤ 2 ^ q2 := by
      rw [← zpow_add_one₀ (by norm_num)]
      exact zpow_le_zpow_right₀ (by norm_num) (by omega)
    have hfull' : (2 ^ f.fractionBits : ℚ) ≤ m2 := by exact_mod_cast hfull
    have hbelow : (2 * 2 ^ f.fractionBits - 1 / 2 : ℚ) * 2 ^ q1 ≤ x := by
      refine le_trans ?_ hle2
      unfold lowEnd
      have hone : (1 : ℚ) ≤ 2 ^ f.fractionBits := one_le_pow₀ (by norm_num)
      split
      · nlinarith
      · rename_i hwide
        have hmore : (2 ^ f.fractionBits : ℚ) + 1 ≤ m2 := by
          exact_mod_cast lt_of_le_of_ne hfull fun heq => hwide ⟨heq.symm, h1.least.trans_lt hq⟩
        nlinarith
    have hlast : m1 + 1 ≤ 2 * 2 ^ f.fractionBits := by
      have := h1.lt
      rw [pow_succ] at this
      omega
    rcases Nat.mod_two_eq_zero_or_one m1 with heven | hodd
    · have hlast' : (m1 + 2 : ℚ) ≤ 2 * 2 ^ f.fractionBits := by
        exact_mod_cast (show m1 + 2 ≤ 2 * 2 ^ f.fractionBits by omega)
      nlinarith
    · have hlast' : (m1 + 1 : ℚ) ≤ 2 * 2 ^ f.fractionBits := by exact_mod_cast hlast
      nlinarith [(hodd1 hodd).2]
  · -- of two neighbours on one scale one is odd, and its ends do not belong to it
    have hwide : ¬ (m2 = 2 ^ f.fractionBits ∧ f.leastScale < q1) := by
      rintro ⟨rfl, hq⟩
      exact absurd (h1.full hq) (by omega)
    rw [lowEnd, if_neg hwide] at hle2 hodd2
    have hm' : (m1 + 1 : ℚ) ≤ m2 := by exact_mod_cast hm
    rcases Nat.mod_two_eq_zero_or_one m1 with heven | hodd
    · rcases Nat.mod_two_eq_zero_or_one m2 with heven2 | hodd2'
      · have hm'' : (m1 + 2 : ℚ) ≤ m2 := by exact_mod_cast (show m1 + 2 ≤ m2 by omega)
        nlinarith
      · nlinarith [(hodd2 hodd2').1]
    · nlinarith [(hodd1 hodd).2]

theorem eq_of_rounds (h1 : f.IsMagnitude m1 q1) (h2 : f.IsMagnitude m2 q2)
    (hx1 : (f.rounds m1 q1).Holds x) (hx2 : (f.rounds m2 q2).Holds x) : m1 = m2 ∧ q1 = q2 := by
  rcases lt_trichotomy q1 q2 with hq | rfl | hq
  · exact absurd hx2 (rounds_apart h1 h2 (.inl hq) hx1)
  · rcases lt_trichotomy m1 m2 with hm | rfl | hm
    · exact absurd hx2 (rounds_apart h1 h2 (.inr ⟨rfl, hm⟩) hx1)
    · exact ⟨rfl, rfl⟩
    · exact absurd hx1 (rounds_apart h2 h1 (.inr ⟨rfl, hm⟩) hx2)
  · exact absurd hx1 (rounds_apart h2 h1 (.inl hq) hx2)

/-! ## 4. The search in single precision -/

theorem climb_le (a b : Nat) (e : Int) (steps : Nat) :
    ratioLog10.climb a b e steps ≤ e + steps := by
  induction steps generalizing e with
  | zero => simp [ratioLog10.climb]
  | succ steps ih =>
    unfold ratioLog10.climb
    dsimp only
    split
    · have := ih (e + 1)
      omega
    · push_cast
      omega

theorem ratioLog10_le {a b : Nat} {l : Int} (h : (Nat.log2 a : Int) - Nat.log2 b ≤ l) :
    ratioLog10 a b ≤ l * 30103 / 100000 + 3 := by
  have hlog : ratioLog2 a b ≤ l := by
    unfold ratioLog2
    dsimp only
    split <;> omega
  have hclimb := climb_le a b ((ratioLog2 a b * 30103).fdiv 100000 - 1) 4
  rw [Int.fdiv_eq_ediv_of_nonneg _ (by decide)] at hclimb
  unfold ratioLog10
  rw [Int.fdiv_eq_ediv_of_nonneg _ (by decide)]
  dsimp only
  omega

theorem tenth_power_lt (hq : -149 ≤ q) (hq' : q ≤ 104) :
    (10 : ℚ) ^ ((q + 23) * 30103 / 100000 - 16) < 2 ^ (q - 1) := by
  have htable : ∀ k : Fin 254,
      let q : Int := k - 149
      let e : Int := (q + 23) * 30103 / 100000 - 16
      10 ^ e.toNat * 2 ^ (-(q - 1)).toNat < 2 ^ (q - 1).toNat * 10 ^ (-e).toNat := by decide +kernel
  have hrow := htable ⟨(q + 149).toNat, by omega⟩
  rw [show (((q + 149).toNat : Nat) : Int) - 149 = q by omega, ← Nat.cast_lt (α := ℚ)] at hrow
  push_cast at hrow
  rw [pow_toNat_eq (by norm_num), pow_toNat_eq (by norm_num) (q - 1)] at hrow
  generalize (q + 23) * 30103 / 100000 - 16 = e at hrow ⊢
  have hscale : (0 : ℚ) < 10 ^ (-e).toNat * 2 ^ (-(q - 1)).toNat := by positivity
  refine lt_of_mul_lt_mul_right ?_ hscale.le
  linarith

/-- Twenty digits are finer than the interval of every single-precision number. -/
theorem onGrid_binary32 (h : binary32.IsMagnitude m q) (hq : q ≤ 104) :
    ∃ n, (binary32.rounds m q).onGrid (ratioLog10 (binary32.rounds m q).value
      (binary32.rounds m q).unit - (0 + 19 : Nat)) = some n := by
  have hleast : -149 ≤ q := h.least
  have hm : m < 2 ^ 24 := h.lt
  have hpos := h.pos
  generalize hr : binary32.rounds m q = r
  have hvalue : r.value = 4 * m * 2 ^ (q - 2).toNat := by rw [← hr]; rfl
  have hunit : r.unit = 2 ^ (-(q - 2)).toNat := by rw [← hr]; exact Nat.one_mul _
  have hhigh : r.high = 4 * m * 2 ^ (q - 2).toNat + 2 * 2 ^ (q - 2).toNat := by rw [← hr]; rfl
  have hlow : r.low ≤ r.value := by rw [← hr]; exact Nat.sub_le _ _
  have htop : ratioLog10 r.value r.unit ≤ (q + 23) * 30103 / 100000 + 3 := by
    apply ratioLog10_le
    have hlog : Nat.log2 (4 * m * 2 ^ (q - 2).toNat) ≤ 25 + (q - 2).toNat := by
      have hlt : 4 * m * 2 ^ (q - 2).toNat < 2 ^ (26 + (q - 2).toNat) := by
        rw [Nat.pow_add]
        exact Nat.mul_lt_mul_of_pos_right (by omega) (Nat.pow_pos (by decide))
      have hne : 4 * m * 2 ^ (q - 2).toNat ≠ 0 := by positivity
      have := (Nat.log2_lt hne).2 hlt
      omega
    rw [hvalue, hunit, Nat.log2_two_pow]
    omega
  generalize ratioLog10 r.value r.unit = top at htop
  have hfine : (10 : ℚ) ^ (top - 19) < 2 ^ (q - 1) :=
    (zpow_le_zpow_right₀ (by norm_num) (by omega)).trans_lt (tenth_power_lt hleast hq)
  refine Rounds.onGrid_fine (by rw [hunit]; positivity) hlow ?_
  rw [hhigh, hvalue, hunit, Nat.add_mul, Nat.add_comm]
  apply Nat.add_lt_add_left
  rw [← Nat.cast_lt (α := ℚ)]
  push_cast
  rw [pow_toNat_eq (by norm_num), pow_toNat_eq (by norm_num) (q - 2)]
  have : (2 : ℚ) ^ (q - 1) = 2 * 2 ^ (q - 2) := by
    rw [← zpow_one_add₀ (by norm_num)]
    congr 1
    omega
  rw [this] at hfine
  calc (10 : ℚ) ^ (top - 19) * 10 ^ (-(top - 19)).toNat * 2 ^ (-(q - 2)).toNat
      = 10 ^ (top - 19) * (10 ^ (-(top - 19)).toNat * 2 ^ (-(q - 2)).toNat) := by ring
    _ < 2 * 2 ^ (q - 2) * (10 ^ (-(top - 19)).toNat * 2 ^ (-(q - 2)).toNat) := by gcongr
    _ = 2 * (2 ^ (q - 2) * 2 ^ (-(q - 2)).toNat) * 10 ^ (-(top - 19)).toNat := by ring

/-! ## 5. The digits -/

theorem length_toDigits_mul_ten (hn : 0 < n) :
    (Nat.toDigits 10 (10 * n)).length = (Nat.toDigits 10 n).length + 1 := by
  have happend := Nat.toDigits_append_toDigits (b := 10) (d := 0) (by decide) hn (by decide)
  rw [Nat.add_zero] at happend
  rw [← happend, List.length_append]
  rfl

theorem stripZeros_eq (hn : 0 < n) {steps : Nat} :
    ∃ k, n = stripZeros n steps * 10 ^ k ∧ 0 < stripZeros n steps
      ∧ (Nat.toDigits 10 n).length = (Nat.toDigits 10 (stripZeros n steps)).length + k := by
  induction steps generalizing n with
  | zero => exact ⟨0, by simp [stripZeros], hn, rfl⟩
  | succ steps ih =>
    unfold stripZeros
    split
    · rename_i hzero
      simp only [Bool.and_eq_true, decide_eq_true_eq] at hzero
      have hten : n = 10 * (n / 10) := by omega
      obtain ⟨k, hk, hpos, hlength⟩ := ih (n := n / 10) (by omega)
      refine ⟨k + 1, ?_, hpos, ?_⟩
      · calc n = 10 * (n / 10) := hten
          _ = 10 * (stripZeros (n / 10) steps * 10 ^ k) := by rw [← hk]
          _ = stripZeros (n / 10) steps * 10 ^ (k + 1) := by ring
      · rw [hten, length_toDigits_mul_ten (by omega), ← hten, hlength]
        rfl
    · exact ⟨0, by simp, hn, rfl⟩

theorem holds_shortest (h : binary32.IsMagnitude m q) (hq : q ≤ 104) :
    0 < (binary32.shortest m q).digits ∧ (binary32.rounds m q).Holds (binary32.shortest m q).value := by
  have hhit := Rounds.onGrid_hit (Rounds.search_hit 0 (show 19 < 20 by decide) (onGrid_binary32 h hq))
  unfold shortest
  dsimp only
  generalize (binary32.rounds m q).search _ 0 20 = found at hhit ⊢
  obtain ⟨n, e⟩ := found
  obtain ⟨k, hk, hpos, hlength⟩ := stripZeros_eq hhit.2
  refine ⟨hpos, ?_⟩
  have hvalue : Digits.value ⟨stripZeros n 20, e + (toString n).length - 1⟩ = n * 10 ^ e := by
    have hstring : ((toString n).length : Int) = (Nat.toDigits 10 (stripZeros n 20)).length + k := by
      rw [← String.length_toList, Text.toList_toString_nat, hlength]
      rfl
    have hexp : e + ((toString n).length : Int) - 1 + 1 - (Nat.toDigits 10 (stripZeros n 20)).length = k + e := by omega
    have hcast : (n : ℚ) = (stripZeros n 20 : Nat) * 10 ^ k := by exact_mod_cast hk
    unfold Digits.value
    rw [hexp, zpow_add₀ (by norm_num), zpow_natCast, hcast]
    ring
  rw [hvalue]
  exact Rounds.has_iff.1 hhit.1

end Format

end ArrayKernel.Number
