import ArrayKernel.Proofs.Typing.Rules
import Mathlib.Algebra.BigOperators.Group.List.Basic

/-!
# The layout of fields

Elements are stored in row-major order. `wordOf` is the word of a scalar of an element, counted
exactly, and each word of the storage belongs to one scalar of one element
(`bijective_storageWord`).
-/

namespace ArrayKernel

open List

/-! ## 1. Rows

Two numbers, the second below a bound, make one: the number of full rows, and the position in the
row. -/

theorem row_add_lt {rows cols i j : Nat} (hi : i < rows) (hj : j < cols) :
    i * cols + j < rows * cols := by
  have hrow : (i + 1) * cols ≤ rows * cols := Nat.mul_le_mul_right cols hi
  rw [Nat.succ_mul] at hrow
  omega

theorem row_add_inj {cols i i' j j' : Nat} (hj : j < cols) (hj' : j' < cols)
    (h : i * cols + j = i' * cols + j') : i = i' ∧ j = j' := by
  have hdiv : ∀ k x, x < cols → (k * cols + x) / cols = k := fun k x hx => by
    rw [Nat.add_comm, Nat.add_mul_div_right x k (by omega), Nat.div_eq_of_lt hx, Nat.zero_add]
  have hrow : i = i' := by rw [← hdiv i j hj, h, hdiv i' j' hj']
  subst hrow
  exact ⟨rfl, Nat.add_left_cancel h⟩

theorem getElem?_flatMap_of_length {α β : Type} {g : α → List β} {cols : Nat} {xs : List α}
    (hcols : ∀ x ∈ xs, (g x).length = cols) {i : Nat} {j : Nat} (hj : j < cols) :
    (xs.flatMap g)[i * cols + j]? = (xs[i]?).bind fun x => (g x)[j]? := by
  induction xs generalizing i with
  | nil => rfl
  | cons x xs ih =>
    obtain ⟨hx, hxs⟩ := forall_mem_cons.1 hcols
    rw [flatMap_cons]
    cases i with
    | zero =>
      rw [Nat.zero_mul, Nat.zero_add, getElem?_append_left (by omega)]
      rfl
    | succ i =>
      rw [getElem?_append_right (by rw [hx, Nat.succ_mul]; omega), hx, Nat.succ_mul]
      rw [show i * cols + cols + j - cols = i * cols + j by omega, ih hxs]
      rfl

/-! ## 2. Scalars of an element -/

/-- A scalar in a value of a type: a component of a vector, an entry of a matrix, or a scalar in a
member of a structure. -/
inductive Leaf : Ty → Type where
  | itself {s : Scalar} : Leaf (.scalar s)
  | component {s : Scalar} {n : Dim} (i : Fin n.toNat) : Leaf (.vector s n)
  | entry {r c : Dim} (i : Fin r.toNat) (j : Fin c.toNat) : Leaf (.matrix r c)
  | first {name : String} {ty : Ty} {rest : Members} (l : Leaf ty) : Leaf (.struct (.cons name ty rest))
  | later {name : String} {ty : Ty} {rest : Members} (l : Leaf (.struct rest)) : Leaf (.struct (.cons name ty rest))

namespace Leaf

def offset : {ty : Ty} → Leaf ty → Nat
  | _, itself => 0
  | _, component i => i
  | _, @entry _ c i j => i * c.toNat + j
  | _, first l => l.offset
  | _, @later _ ty _ l => ty.size + l.offset

def scalar : {ty : Ty} → Leaf ty → Scalar
  | _, @itself s => s
  | _, @component s _ _ => s
  | _, entry _ _ => .f32
  | _, first l => l.scalar
  | _, later l => l.scalar

variable {ty : Ty} {l : Leaf ty}

theorem offset_lt : l.offset < ty.size := by
  induction l with
  | itself => exact Nat.one_pos
  | component i => exact i.isLt
  | entry i j => exact row_add_lt i.isLt j.isLt
  | first l ih =>
    simp only [offset, Ty.size, Ty.sizeOfMembers]
    omega
  | later l ih =>
    simp only [offset, Ty.size, Ty.sizeOfMembers] at ih ⊢
    omega

theorem offset_injective {l' : Leaf ty} (h : l.offset = l'.offset) : l = l' := by
  induction l with
  | itself =>
    cases l'
    rfl
  | component i =>
    cases l' with
    | component i' => exact congrArg component (Fin.ext h)
  | entry i j =>
    cases l' with
    | entry i' j' =>
      obtain ⟨hi, hj⟩ := row_add_inj j.isLt j'.isLt h
      rw [Fin.ext hi, Fin.ext hj]
  | first l ih =>
    cases l' with
    | first l' => exact congrArg first (ih h)
    | later l' =>
      -- the scalars of a member come before all of those of the next ones
      have hlt := l.offset_lt
      simp only [offset] at h
      omega
  | @later _ ty _ l ih =>
    cases l' with
    | first l' =>
      have hlt := l'.offset_lt
      simp only [offset] at h
      omega
    | later l' => exact congrArg later (ih (add_left_cancel h))

theorem getElem?_scalars : ty.scalars[l.offset]? = some l.scalar := by
  induction l with
  | itself => rfl
  | component i => exact getElem?_replicate_of_lt i.isLt
  | entry i j => exact getElem?_replicate_of_lt (row_add_lt i.isLt j.isLt)
  | first l ih =>
    simp only [offset, Ty.scalars, Ty.scalarsOfMembers, scalar] at ih ⊢
    rw [getElem?_append_left (by rw [Ty.length_scalars]; exact l.offset_lt), ih]
  | later l ih =>
    simp only [offset, Ty.scalars, Ty.scalarsOfMembers, scalar] at ih ⊢
    rw [getElem?_append_right (by rw [Ty.length_scalars]; omega), Ty.length_scalars, Nat.add_sub_cancel_left, ih]

mutual

theorem exists_offset : (ty : Ty) → ∀ k < ty.size, ∃ l : Leaf ty, l.offset = k
  | .scalar _, k, hk => ⟨itself, (Nat.lt_one_iff.1 hk).symm⟩
  | .vector _ _, k, hk => ⟨component ⟨k, hk⟩, rfl⟩
  | .matrix r c, k, hk => by
    have hc : 0 < c.toNat := by cases c <;> decide
    refine ⟨entry ⟨k / c.toNat, Nat.div_lt_of_lt_mul (Nat.mul_comm _ _ ▸ hk)⟩ ⟨k % c.toNat, Nat.mod_lt k hc⟩, ?_⟩
    exact Nat.div_add_mod' k c.toNat
  | .struct ms, k, hk => exists_offset_members ms k hk

theorem exists_offset_members :
    (ms : Members) → ∀ k < Ty.sizeOfMembers ms, ∃ l : Leaf (.struct ms), l.offset = k
  | .nil, k, hk => absurd hk (Nat.not_lt_zero k)
  | .cons _ ty rest, k, hk => by
    rw [Ty.sizeOfMembers] at hk
    by_cases hfirst : k < ty.size
    · obtain ⟨l, hl⟩ := exists_offset ty k hfirst
      exact ⟨first l, hl⟩
    · obtain ⟨l, hl⟩ := exists_offset_members rest (k - ty.size) (by omega)
      refine ⟨later l, ?_⟩
      rw [offset, hl]
      omega

end

end Leaf

/-! ## 3. Elements of a field -/

def position : List Nat → List Nat → Nat
  | _ :: ns, i :: is => i * ns.prod + position ns is
  | _, _ => 0

theorem position_lt {is ns : List Nat} (h : Forall₂ (· < ·) is ns) : position ns is < ns.prod := by
  induction h with
  | nil => exact Nat.one_pos
  | cons hi _ ih =>
    exact row_add_lt hi ih

theorem position_injective {is js ns : List Nat} (hi : Forall₂ (· < ·) is ns)
    (hj : Forall₂ (· < ·) js ns) (h : position ns is = position ns js) : is = js := by
  induction hi generalizing js with
  | nil =>
    cases hj
    rfl
  | cons _ his ih =>
    cases hj with
    | cons _ hjs =>
      obtain ⟨rfl, hrest⟩ := row_add_inj (position_lt his) (position_lt hjs) h
      rw [ih hjs hrest]

theorem exists_position (ns : List Nat) :
    ∀ k < ns.prod, ∃ is, Forall₂ (· < ·) is ns ∧ position ns is = k := by
  induction ns with
  | nil =>
    intro k hk
    exact ⟨[], .nil, (Nat.lt_one_iff.1 hk).symm⟩
  | cons n ns ih =>
    intro k hk
    have hpos : 0 < ns.prod := Nat.pos_of_ne_zero fun h => by simp [h] at hk
    obtain ⟨is, his, hrest⟩ := ih (k % ns.prod) (Nat.mod_lt k hpos)
    refine ⟨k / ns.prod :: is, .cons (Nat.div_lt_of_lt_mul (Nat.mul_comm _ _ ▸ hk)) his, ?_⟩
    rw [position, hrest]
    exact Nat.div_add_mod' k ns.prod

namespace FieldInfo

def extents (f : FieldInfo) : List Nat := f.shape.map UInt64.toNat

def storage (f : FieldInfo) : Nat := f.extents.prod * f.elem.size

/-- An index in range. There is none if an extent is zero. -/
structure Index (f : FieldInfo) where
  coords : List Nat
  within : Forall₂ (· < ·) coords f.extents

def wordOf (f : FieldInfo) (i : f.Index) (l : Leaf f.elem) : Nat :=
  position f.extents i.coords * f.elem.size + l.offset

variable (f : FieldInfo)

theorem wordOf_lt {i : f.Index} {l : Leaf f.elem} : f.wordOf i l < f.storage :=
  row_add_lt (position_lt i.within) l.offset_lt

def storageWord (x : f.Index × Leaf f.elem) : Fin f.storage := ⟨f.wordOf x.1 x.2, f.wordOf_lt⟩

theorem bijective_storageWord : Function.Bijective f.storageWord := by
  constructor
  · rintro ⟨⟨is, his⟩, l⟩ ⟨⟨js, hjs⟩, l'⟩ h
    obtain ⟨hposition, hoffset⟩ := row_add_inj l.offset_lt l'.offset_lt (congrArg Fin.val h)
    obtain rfl := position_injective his hjs hposition
    rw [Leaf.offset_injective hoffset]
  · rintro ⟨w, hw⟩
    have hpos : 0 < f.elem.size := Nat.pos_of_ne_zero fun h => by simp [storage, h] at hw
    obtain ⟨l, hl⟩ := Leaf.exists_offset f.elem (w % f.elem.size) (Nat.mod_lt w hpos)
    obtain ⟨is, his, hposition⟩ := exists_position f.extents (w / f.elem.size)
      (Nat.div_lt_of_lt_mul (Nat.mul_comm _ _ ▸ hw))
    refine ⟨(⟨is, his⟩, l), Fin.ext ?_⟩
    show position f.extents is * f.elem.size + l.offset = w
    rw [hposition, hl]
    exact Nat.div_add_mod' w f.elem.size

theorem getElem?_scalars_wordOf (i : f.Index) (l : Leaf f.elem) :
    f.elem.scalars[f.wordOf i l % f.elem.size]? = some l.scalar := by
  rw [wordOf, Nat.mul_add_mod_self_right, Nat.mod_eq_of_lt l.offset_lt]
  exact l.getElem?_scalars

/-! ## 4. Sizes within 64 bits -/

theorem sizeProduct_ok_iff {a b n : Nat} :
    sizeProduct a b = .ok n ↔ n = a * b ∧ a * b < UInt64.size := by
  unfold sizeProduct
  split <;> simp_all [eq_comm]

/-- A product is built up without overflow if all products on the way are in range. -/
theorem foldlM_sizeProduct_ok_iff (ns : List UInt64) {a n : Nat} (ha : a < UInt64.size) :
    ns.foldlM (fun m e => sizeProduct m e.toNat) a = .ok n ↔
      n = a * (ns.map UInt64.toNat).prod ∧ ∀ ms, ms <+: ns.map UInt64.toNat → a * ms.prod < UInt64.size := by
  induction ns generalizing a with
  | nil =>
    have hpure : [].foldlM (fun m (e : UInt64) => sizeProduct m e.toNat) a = .ok a := rfl
    rw [hpure, Except.ok.injEq, eq_comm]
    simp [ha]
  | cons e ns ih =>
    rw [foldlM_cons, map_cons, prod_cons, ← mul_assoc]
    by_cases hfits : a * e.toNat < UInt64.size
    · rw [sizeProduct_ok_iff.2 ⟨rfl, hfits⟩]
      refine (ih hfits).trans (and_congr_right fun _ => ⟨fun h ms hms => ?_, fun h ms hms => ?_⟩)
      · obtain rfl | ⟨ms, rfl, hrest⟩ := prefix_cons_iff.1 hms
        · rwa [prod_nil, mul_one]
        · rw [prod_cons, ← mul_assoc]
          exact h ms hrest
      · rw [mul_assoc, ← prod_cons]
        exact h _ (prefix_cons_iff.2 (.inr ⟨ms, rfl, hms⟩))
    · have hstop : sizeProduct a e.toNat = .error .product := if_neg hfits
      rw [hstop]
      refine iff_of_false nofun fun h => hfits ?_
      have hfirst := h.2 [e.toNat] (by simp [prefix_cons_iff])
      rwa [prod_singleton] at hfirst

theorem bind_sizeProduct_ok_iff {x : Except SizeOverflow Nat} {k n : Nat} :
    (do sizeProduct (← x) k) = .ok n ↔ ∃ m, x = .ok m ∧ n = m * k ∧ m * k < UInt64.size := by
  cases x with
  | error e => exact iff_of_false nofun fun ⟨_, h, _⟩ => nomatch h
  | ok m =>
    refine sizeProduct_ok_iff.trans ⟨fun h => ⟨m, rfl, h⟩, ?_⟩
    rintro ⟨_, ⟨⟩, h⟩
    exact h

variable {n : Nat}

theorem len_ok_iff :
    f.len = .ok n ↔ n = f.extents.prod ∧ ∀ ms, ms <+: f.extents → ms.prod < UInt64.size := by
  have h := foldlM_sizeProduct_ok_iff f.shape (n := n) (show 1 < UInt64.size by decide)
  simp only [one_mul] at h
  exact h

theorem words_ok_iff : f.words = .ok n ↔
    n = f.storage ∧ f.storage < UInt64.size ∧ ∀ ms, ms <+: f.extents → ms.prod < UInt64.size := by
  rw [words, bind_sizeProduct_ok_iff]
  constructor
  · rintro ⟨m, hm, rfl, hlt⟩
    obtain ⟨rfl, hlen⟩ := f.len_ok_iff.1 hm
    exact ⟨rfl, hlt, hlen⟩
  · rintro ⟨rfl, hlt, hlen⟩
    exact ⟨_, f.len_ok_iff.2 ⟨rfl, hlen⟩, rfl, hlt⟩

theorem len_of_bytes {f : FieldInfo} (h : f.bytes = .ok n) : f.len = .ok f.extents.prod := by
  obtain ⟨m, hm, -⟩ := bind_sizeProduct_ok_iff.1 h
  exact f.len_ok_iff.2 ⟨rfl, (f.words_ok_iff.1 hm).2.2⟩

theorem bytes_ok {f : FieldInfo} (h : f.bytes = .ok n) :
    f.words = .ok f.storage ∧ n = 4 * f.storage := by
  obtain ⟨m, hm, rfl, -⟩ := bind_sizeProduct_ok_iff.1 h
  obtain ⟨rfl, -⟩ := f.words_ok_iff.1 hm
  exact ⟨hm, mul_comm ..⟩

theorem foldl_mul_eq (ns : List UInt64) (a : UInt64) :
    ns.foldl (· * ·) a = a * UInt64.ofNat (ns.map UInt64.toNat).prod := by
  induction ns generalizing a with
  | nil => exact (UInt64.mul_one a).symm
  | cons n ns ih =>
    rw [foldl_cons, ih, map_cons, prod_cons, UInt64.ofNat_mul, UInt64.ofNat_toNat, UInt64.mul_assoc]

/-- The exact distances, in words, of neighbours along each dimension. -/
def stepsOf (size : Nat) : List Nat → List Nat
  | [] => []
  | _ :: ns => ns.prod * size :: stepsOf size ns

theorem map_stridesOf (size : Nat) (shape : List UInt64) :
    (stridesOf shape).map (fun s => s.toInt64 * Int64.ofNat size)
      = (stepsOf size (shape.map UInt64.toNat)).map Int64.ofNat := by
  induction shape with
  | nil => rfl
  | cons n shape ih =>
    have hhead : (UInt64.ofNat (shape.map UInt64.toNat).prod).toInt64 * Int64.ofNat size
        = Int64.ofNat ((shape.map UInt64.toNat).prod * size) := by
      rw [Int64.ofNat_mul]
      rfl
    rw [stridesOf, map_cons, ih, foldl_mul_eq, UInt64.one_mul, hhead]
    rfl

end FieldInfo

end ArrayKernel
