import ArrayKernel.Proofs.Field.Layout
import ArrayKernel.Proofs.Meaning.Expression
import Mathlib.Data.Int.ModEq

/-!
# Parts of elements

A chain of accesses lowers to a place whose offset is the number of words before the part
(`gives_follow`). Offsets are compared modulo a number `m`: `0` for exact integers, `2 ^ 32` for
the words of a device.
-/

namespace ArrayKernel.Field

open IR Lowering Surface Option

variable {part ty : Ty} {ρ : StmtId → Int} {bits bound n : Nat} {o : Operand} {op : BinOp}
  {g : Int → Int → Int} {m z : Int} {name : String} {rest : Members} {i : Fin n}

/-! ## 1. Parts of a type -/

/-- A part of a type: where it starts, and which scalar of the whole each of its scalars is. -/
structure Portion (ty part : Ty) where
  start : Nat
  leaf : Leaf part → Leaf ty
  offset_leaf (l : Leaf part) : (leaf l).offset = start + l.offset
  scalar_leaf (l : Leaf part) : (leaf l).scalar = l.scalar
  within : start + part.size ≤ ty.size

namespace Portion

def whole (ty : Ty) : Portion ty ty where
  start := 0
  leaf l := l
  offset_leaf _ := (zero_add _).symm
  scalar_leaf _ := rfl
  within := (zero_add _).le

def trans {ty mid part : Ty} (p : Portion ty mid) (q : Portion mid part) : Portion ty part where
  start := p.start + q.start
  leaf l := p.leaf (q.leaf l)
  offset_leaf l := by rw [p.offset_leaf, q.offset_leaf, add_assoc]
  scalar_leaf l := by rw [p.scalar_leaf, q.scalar_leaf]
  within := by
    have hp := p.within
    have hq := q.within
    omega

def component {s : Scalar} {n : Dim} (i : Fin n.toNat) : Portion (.vector s n) (.scalar s) where
  start := i
  leaf _ := .component i
  offset_leaf | .itself => rfl
  scalar_leaf | .itself => rfl
  within := i.isLt

def row {r c : Dim} (i : Fin r.toNat) : Portion (.matrix r c) (.vector .f32 c) where
  start := i * c.toNat
  leaf | .component j => .entry i j
  offset_leaf | .component _ => rfl
  scalar_leaf | .component _ => rfl
  within := by
    have hrow := Nat.mul_le_mul_right c.toNat i.isLt
    rwa [Nat.succ_mul] at hrow

def entry {r c : Dim} (i : Fin r.toNat) (j : Fin c.toNat) : Portion (.matrix r c) .f32 where
  start := i * c.toNat + j
  leaf _ := .entry i j
  offset_leaf | .itself => rfl
  scalar_leaf | .itself => rfl
  within := row_add_lt i.isLt j.isLt

theorem size_le_struct : 0 + ty.size ≤ (Ty.struct (.cons name ty rest)).size := by
  simp only [Ty.size, Ty.sizeOfMembers]
  omega

def first (name : String) (ty : Ty) (rest : Members) :
    Portion (.struct (.cons name ty rest)) ty where
  start := 0
  leaf := .first
  offset_leaf _ := (zero_add _).symm
  scalar_leaf _ := rfl
  within := size_le_struct

theorem later_size_le {p : Portion (.struct rest) part} :
    ty.size + p.start + part.size ≤ (Ty.struct (.cons name ty rest)).size := by
  have hp := p.within
  simp only [Ty.size, Ty.sizeOfMembers] at hp ⊢
  omega

def later (name : String) (ty : Ty) {rest : Members} {part : Ty} (p : Portion (.struct rest) part) :
    Portion (.struct (.cons name ty rest)) part where
  start := ty.size + p.start
  leaf l := .later (p.leaf l)
  offset_leaf l := by rw [Leaf.offset, p.offset_leaf, add_assoc]
  scalar_leaf l := p.scalar_leaf l
  within := later_size_le

def member? (name : String) : (ms : Members) → Option ((part : Ty) × Portion (.struct ms) part)
  | .nil => none
  | .cons n ty rest => if n = name then some ⟨ty, first n ty rest⟩ else (member? name rest).map
      fun x => ⟨x.1, x.2.later n ty⟩

theorem find?_eq (name : String) (ms : Members) :
    ms.find? name = (member? name ms).map fun x => (x.2.start, x.1) := by
  induction ms using Members.rec (motive_1 := fun _ => True) with
  | nil => rfl
  | cons n ty rest _ ih =>
    rw [Members.find?, member?]
    by_cases hn : n = name
    · rw [if_pos hn, if_pos hn]
      rfl
    · rw [if_neg hn, if_neg hn, ih, map_map, map_map]
      rfl
  | _ => trivial

end Portion

/-! ## 2. Accesses -/

def intValue (ρ : StmtId → Int) : Operand → Option Int
  | .stmt id => some (ρ id)
  | .const (.i32 v) => some v.toInt
  | _ => none

def below? (ρ : StmtId → Int) (n : Nat) (o : Operand) : Option (Fin n) :=
  (intValue ρ o).bind fun v => if h : 0 ≤ v ∧ v.toNat < n then some ⟨v.toNat, h.2⟩ else none

theorem intValue_of_below? (h : below? ρ n o = some i) : intValue ρ o = some ((i : Nat) : Int) := by
  obtain ⟨v, hv, hi⟩ := bind_eq_some_iff.1 h
  split at hi
  · next hrange =>
    cases hi
    exact hv.trans (congrArg some (Int.toNat_of_nonneg hrange.1).symm)
  · cases hi

inductive Access where
  | member (name : String)
  | index (is : List Operand)

/-- The part of a type that an access selects, if it is in range. -/
def Access.select? (ρ : StmtId → Int) : Access → (ty : Ty) → Option ((part : Ty) × Portion ty part)
  | .member name, .struct ms => Portion.member? name ms
  | .member name, .vector s n =>
    match swizzle? name n.toNat with
    | some [i] => if h : i < n.toNat then some ⟨.scalar s, .component ⟨i, h⟩⟩ else none
    | _ => none
  | .index [i], .vector s n => (below? ρ n.toNat i).map fun i => ⟨.scalar s, .component i⟩
  | .index [i], .matrix r c => (below? ρ r.toNat i).map fun i => ⟨.vector .f32 c, .row i⟩
  | .index [i, j], .matrix r c =>
    (below? ρ r.toNat i).bind fun i => (below? ρ c.toNat j).map fun j => ⟨.f32, .entry i j⟩
  | _, _ => none

def reach? (ρ : StmtId → Int) : List Access → (ty : Ty) → Option ((part : Ty) × Portion ty part)
  | [], ty => some ⟨ty, .whole ty⟩
  | a :: chain, ty => (a.select? ρ ty).bind fun x => (reach? ρ chain x.1).map fun y => ⟨y.1, x.2.trans y.2⟩

def Access.lower (span : Span) (base : Lowered) : Access → Lower Lowered
  | .member name => Lowering.member base name span
  | .index is => Lowering.index base is span

def follow (span : Span) (base : Lowered) (chain : List Access) : Lower Lowered :=
  chain.foldlM (Access.lower span) base

/-! ## 3. Emitted arithmetic -/

def arith? : BinOp → Option (Int → Int → Int)
  | .add => some (· + ·)
  | .mul => some (· * ·)
  | _ => none

theorem arith?_modEq (hg : arith? op = some g) {x x' y y' : Int} (hx : x ≡ x' [ZMOD m])
    (hy : y ≡ y' [ZMOD m]) : g x y ≡ g x' y' [ZMOD m] := by
  unfold arith? at hg
  split at hg <;> cases hg
  · exact hx.add hy
  · exact hx.mul hy

theorem fold_arith? (hg : arith? op = some g) {u v : Int32} :
    ∃ w : Int32, Fold.binary op (.i32 u) (.i32 v) .i32 .i32 = .ok (some (.i32 w))
      ∧ w.toInt = (g u.toInt v.toInt).bmod (2 ^ 32) := by
  unfold arith? at hg
  split at hg <;> cases hg
  · exact ⟨u + v, rfl, Int32.toInt_add u v⟩
  · exact ⟨u * v, rfl, Int32.toInt_mul u v⟩

def Computes (m : Int) (ρ : StmtId → Int) : IR.Stmt → Prop
  | .op id (.binary op a b _ _) =>
    ∀ g, arith? op = some g → ∀ x y, intValue ρ a = some x → intValue ρ b = some y → ρ id ≡ g x y [ZMOD m]
  | _ => True

/-- A step that succeeds. What is said of its result may rest on the statements that it emits. -/
def Gives {α : Type} (m : Int) (ρ : StmtId → Int) (step : Lower α) (Q : Prop → α → Prop) : Prop :=
  ∀ b, ∃ a b' code, step b = .ok a b' ∧ Meaning.Emits b b' code ∧ Q (∀ s ∈ code, Computes m ρ s) a

namespace Gives

variable {m : Int} {ρ : StmtId → Int} {α β : Type} {x : Lower α}

theorem pure {a : α} {Q : Prop → α → Prop} (h : Q True a) : Gives m ρ (Pure.pure a) Q := by
  intro b
  refine ⟨a, b, [], rfl, .refl b, ?_⟩
  simpa using h

theorem bind {f : α → Lower β} {P : Prop → α → Prop} {Q : Prop → β → Prop} (hx : Gives m ρ x P)
    (hf : ∀ ok a, P ok a → Gives m ρ (f a) fun ok' r => Q (ok ∧ ok') r) :
    Gives m ρ (x >>= f) Q := by
  intro b
  obtain ⟨a, b1, code, hrun, hemits, hp⟩ := hx b
  obtain ⟨r, b2, code', hrun', hemits', hq⟩ := hf _ a hp b1
  refine ⟨r, b2, code ++ code', ?_, hemits.trans hemits', ?_⟩
  · show EStateM.bind x f b = _
    rw [EStateM.bind, hrun]
    exact hrun'
  · simpa only [List.forall_mem_append] using hq

theorem imp {P Q : Prop → α → Prop} (hx : Gives m ρ x P) (h : ∀ ok a, P ok a → Q ok a) :
    Gives m ρ x Q := by
  intro b
  obtain ⟨a, b', code, hrun, hemits, hp⟩ := hx b
  exact ⟨a, b', code, hrun, hemits, h _ a hp⟩

end Gives

/-! ## 4. Offsets -/

/-- The operand has an exact value modulo `m`, if the statements so far are right. -/
def Stands (m : Int) (ρ : StmtId → Int) (ok : Prop) (o : Operand) (k : Nat) : Prop :=
  ∃ z, intValue ρ o = some z ∧ (ok → z ≡ k [ZMOD m])

/-- Modulo `m` nothing is lost on numbers up to a bound in arithmetic of some bits: either `m`
counts no more than the words of a device, or numbers are exact and the bound is within the range.
-/
def Keeps (m : Int) (bits bound : Nat) : Prop := m ∣ 2 ^ 32 ∨ m = 0 ∧ 2 * bound < 2 ^ bits

theorem Keeps.mono {bound' : Nat} (h : Keeps m bits bound) (hle : bound' ≤ bound) :
    Keeps m bits bound' :=
  h.imp_right fun h => ⟨h.1, by omega⟩

theorem bmod_modEq (hm : m ∣ 2 ^ 32) (hbits : 32 ≤ bits) (z : Int) :
    z.bmod (2 ^ bits) ≡ z [ZMOD m] := by
  have hmod : z.bmod (2 ^ bits) ≡ z [ZMOD (2 ^ bits : Nat)] := Int.bmod_emod
  have hdvd : m ∣ (2 ^ bits : Nat) := by
    exact hm.trans (pow_dvd_pow 2 hbits)
  exact hmod.of_dvd hdvd

theorem Keeps.bmod_modEq (h : Keeps m bits bound) (hbits : 32 ≤ bits) (hn : n ≤ bound)
    (hz : z ≡ n [ZMOD m]) : z.bmod (2 ^ bits) ≡ n [ZMOD m] := by
  rcases h with hm | ⟨rfl, hbound⟩
  · exact (Field.bmod_modEq hm hbits z).trans hz
  · -- the number is within the range, so nothing wraps
    rw [Int.modEq_zero_iff] at hz ⊢
    rw [hz]
    exact Int.bmod_eq_of_le (by omega) (by omega)

theorem intValue_of_isInt {v : Int32} (h : isInt v o = true) (hz : intValue ρ o = some z) :
    z = v.toInt := by
  cases of_decide_eq_true h
  exact (Option.some.inj hz).symm

section Offsets

variable {m : Int} {ρ : StmtId → Int} {bound k j : Nat} {ok : Prop} {a b : Operand}

theorem stands_int (hm : Keeps m 32 bound) (hk : k ≤ bound) : Stands m ρ ok (.int k) k := by
  refine ⟨_, rfl, fun _ => ?_⟩
  rw [Int32.toInt_ofInt]
  exact hm.bmod_modEq (le_refl 32) hk Int.ModEq.rfl

theorem gives_simplified (hg : arith? op = some g)
    (ha : Stands m ρ ok a j) (hb : Stands m ρ ok b k) (hn : g j k = n) :
    Gives m ρ (if op = .add && isInt 0 a then pure b else if op = .add && isInt 0 b then pure a
      else if op = .mul && isInt 1 b then pure a else if op = .mul && isInt 1 a then pure b
      else emitValue (.binary op a b .i32 .i32)) fun ok' o => Stands m ρ (ok ∧ ok') o n := by
  obtain ⟨x, hx, hxj⟩ := ha
  obtain ⟨y, hy, hyk⟩ := hb
  have hval : ok → g x y ≡ n [ZMOD m] := fun h => hn ▸ arith?_modEq hg (hxj h) (hyk h)
  -- the operand that is left has the value of the operation
  have hleft : ∀ {o : Operand} {z : Int}, intValue ρ o = some z → g x y = z →
      Gives m ρ (pure o) fun ok' o => Stands m ρ (ok ∧ ok') o n :=
    fun ho hz => .pure ⟨_, ho, fun h => hz ▸ hval h.1⟩
  split_ifs with h₁ h2 h3 h4
  · obtain ⟨hop, h0⟩ := Bool.and_eq_true_iff.1 h₁
    cases of_decide_eq_true hop
    cases hg
    obtain rfl := intValue_of_isInt h0 hx
    exact hleft hy (zero_add y)
  · obtain ⟨hop, h0⟩ := Bool.and_eq_true_iff.1 h2
    cases of_decide_eq_true hop
    cases hg
    obtain rfl := intValue_of_isInt h0 hy
    exact hleft hx (add_zero x)
  · obtain ⟨hop, h1⟩ := Bool.and_eq_true_iff.1 h3
    cases of_decide_eq_true hop
    cases hg
    obtain rfl := intValue_of_isInt h1 hy
    exact hleft hx (mul_one x)
  · obtain ⟨hop, h1⟩ := Bool.and_eq_true_iff.1 h4
    cases of_decide_eq_true hop
    cases hg
    obtain rfl := intValue_of_isInt h1 hx
    exact hleft hy (one_mul y)
  · intro b0
    refine ⟨.stmt b0.nextId, _, _, rfl, (Meaning.Emits.emit rfl).2, ρ b0.nextId, rfl, fun h => ?_⟩
    exact (h.2 _ (List.mem_singleton_self _) g hg x y hx hy).trans (hval h.1)

theorem gives_intBinary (hm : Keeps m 32 bound) (hg : arith? op = some g) (ha : Stands m ρ ok a j)
    (hb : Stands m ρ ok b k) (hn : g j k = n) (hbound : n ≤ bound) :
    Gives m ρ (intBinary op a b) fun ok' o => Stands m ρ (ok ∧ ok') o n := by
  match a, b, ha, hb with
  | .stmt i, b, ha, hb | .const l, .stmt i, ha, hb => exact gives_simplified hg ha hb hn
  | .const (.i32 u), .const (.i32 v), ⟨_, rfl, hu⟩, ⟨_, rfl, hv⟩ =>
    obtain ⟨w, hfold, hw⟩ := fold_arith? hg
    have hpure : intBinary op (.const (.i32 u)) (.const (.i32 v)) = pure (.const (.i32 w)) := intBinary_const hfold
    rw [hpure]
    refine .pure ⟨w.toInt, rfl, fun h => ?_⟩
    rw [hw]
    exact hm.bmod_modEq (le_refl 32) hbound (hn ▸ arith?_modEq hg (hu h.1) (hv h.1))

theorem Stands.imp {ok' : Prop} (h : Stands m ρ ok o k) (hok : ok' → ok) : Stands m ρ ok' o k := by
  obtain ⟨z, hz, hmod⟩ := h
  exact ⟨z, hz, fun h' => hmod (hok h')⟩

theorem stands_below (h : below? ρ n o = some i) (ok : Prop) : Stands m ρ ok o i :=
  ⟨_, intValue_of_below? h, fun _ => .rfl⟩

end Offsets

/-! ## 5. Places -/

/-- What lowers to a part of an element of a field. Its offset is the number of words before the
part. -/
def StandsAt (m : Int) (ρ : StmtId → Int) (f : FieldInfo) (is : List Operand) (start : Nat)
    (part : Ty) (ok : Prop) (l : Lowered) : Prop :=
  ∃ o, l = .place (.global f is o part) ∧ Stands m ρ ok o start

section Places

variable {m : Int} {ρ : StmtId → Int} {f : FieldInfo} {is : List Operand} {bound start step : Nat}
  {part : Ty} {ok : Prop} {o : Operand} (hm : Keeps m 32 bound) (ho : Stands m ρ ok o start)
  (hbound : start + step ≤ bound)
include hm ho hbound

theorem gives_shift {x : Lower Operand}
    (hx : Gives m ρ x fun ok' s => Stands m ρ (ok ∧ ok') s step) :
    Gives m ρ (do let s ← x; return .place (.global f is (← intBinary .add o s) part))
      fun ok' l => StandsAt m ρ f is (start + step) part (ok ∧ ok') l := by
  refine hx.bind fun ok1 s hs => ?_
  refine (gives_intBinary hm rfl (ho.imp And.left) hs rfl hbound).bind fun ok2 o' ho' => ?_
  exact .pure ⟨o', rfl, ho'.imp fun h => ⟨⟨h.1, h.2.1⟩, h.2.2.1⟩⟩

theorem gives_memberPlace {ms : Members} (hfind : ms.find? name = some (step, part)) :
    Gives m ρ (do return .place (← memberPlace (.global f is o (.struct ms)) name))
      fun ok' l => StandsAt m ρ f is (start + step) part (ok ∧ ok') l := by
  have hrun : (do return .place (← memberPlace (.global f is o (.struct ms)) name) : Lower Lowered)
      = do let s ← pure (.int step); return .place (.global f is (← intBinary .add o s) part) := by
    simp [memberPlace, Place.ty, Ty.member, hfind, typed]
  rw [hrun]
  exact gives_shift hm ho hbound (.pure (stands_int hm (by omega)))

theorem gives_subPlace_vector {s : Scalar} {n : Dim} {i : Operand} (hi : ∀ ok, Stands m ρ ok i step)
    {span : Span} :
    Gives m ρ (do return .place (← subPlace (.global f is o (.vector s n)) [i] span))
      fun ok' l => StandsAt m ρ f is (start + step) (.scalar s) (ok ∧ ok') l := by
  have hrun : (do return .place (← subPlace (.global f is o (.vector s n)) [i] span) : Lower Lowered)
      = do let s' ← pure i; return .place (.global f is (← intBinary .add o s') (.scalar s)) := by
    simp [subPlace, Place.ty]
  rw [hrun]
  exact gives_shift hm ho hbound (.pure (hi _))

end Places

section Matrices

variable {m : Int} {ρ : StmtId → Int} {f : FieldInfo} {is : List Operand} {bound start : Nat}
  {ok : Prop} {o : Operand} (hm : Keeps m 32 bound) (ho : Stands m ρ ok o start) {r c : Dim}
  (hbound : start + r.toNat * c.toNat ≤ bound) {i : Operand} {x : Fin r.toNat}
  (hi : below? ρ r.toNat i = some x) (span : Span)
include hm hbound hi

theorem gives_rowOffset (ok : Prop) :
    Gives m ρ (intBinary .mul i (.int c.toNat)) fun ok' s => Stands m ρ (ok ∧ ok') s (x * c.toNat) := by
  have hrow : (x + 1) * c.toNat ≤ r.toNat * c.toNat := Nat.mul_le_mul_right _ x.isLt
  rw [Nat.succ_mul] at hrow
  exact gives_intBinary hm rfl (stands_below hi ok) (stands_int hm (by omega)) (Int.natCast_mul _ _).symm (by omega)

include ho

theorem gives_subPlace_row :
    Gives m ρ (do return .place (← subPlace (.global f is o (.matrix r c)) [i] span))
      fun ok' l => StandsAt m ρ f is (start + x * c.toNat) (.vector .f32 c) (ok ∧ ok') l := by
  have hrun : (do return .place (← subPlace (.global f is o (.matrix r c)) [i] span) : Lower Lowered)
      = do
        let s ← intBinary .mul i (.int c.toNat)
        return .place (.global f is (← intBinary .add o s) (.vector .f32 c)) := by
    simp [subPlace, Place.ty]
  have hrow : x * c.toNat ≤ r.toNat * c.toNat := Nat.mul_le_mul_right _ x.isLt.le
  rw [hrun]
  exact gives_shift hm ho (by omega) (gives_rowOffset hm hbound hi ok)

theorem gives_subPlace_entry {j : Operand} {y : Fin c.toNat} (hj : below? ρ c.toNat j = some y) :
    Gives m ρ (do return .place (← subPlace (.global f is o (.matrix r c)) [i, j] span))
      fun ok' l => StandsAt m ρ f is (start + (x * c.toNat + y)) .f32 (ok ∧ ok') l := by
  have hrun : (do return .place (← subPlace (.global f is o (.matrix r c)) [i, j] span) : Lower Lowered)
      = do
        let s ← (do let row ← intBinary .mul i (.int c.toNat); intBinary .add row j)
        return .place (.global f is (← intBinary .add o s) .f32) := by
    simp [subPlace, Place.ty]
  have hentry : x * c.toNat + y < r.toNat * c.toNat := row_add_lt x.isLt y.isLt
  rw [hrun]
  refine gives_shift hm ho (by omega) ((gives_rowOffset hm hbound hi ok).bind fun ok1 row hrow => ?_)
  exact (gives_intBinary hm rfl hrow (stands_below hj _) rfl (by omega)).imp fun ok2 s hs =>
    hs.imp fun h => ⟨⟨h.1, h.2.1⟩, h.2.2⟩

end Matrices

/-! ## 6. Chains of accesses -/

theorem gives_element {f : FieldInfo} {is : List Operand} (hlen : is.length = f.shape.length)
    (span : Span) :
    Gives m ρ (Lowering.index (.static (.field f)) is span) (StandsAt m ρ f is 0 f.elem) := by
  intro b
  have hrun : Lowering.index (.static (.field f)) is span = do
      touchField f
      return .place (.global f is (.int 0) f.elem) := if_neg (not_not.2 hlen)
  rw [hrun]
  exact ⟨_, _, [], rfl, ⟨(List.append_nil _).symm, le_refl _, rfl⟩, .int 0, rfl, _, rfl, fun _ => Int.ModEq.rfl⟩

section Chains

variable {m : Int} {ρ : StmtId → Int} {f : FieldInfo} {is : List Operand} {bound start : Nat}
  {ty : Ty} {ok : Prop} (hm : Keeps m 32 bound) (span : Span)
include hm

theorem gives_lower {a : Access} {q : Portion ty part} (hq : a.select? ρ ty = some ⟨part, q⟩)
    (ho : Stands m ρ ok o start) (hbound : start + ty.size ≤ bound) :
    Gives m ρ (a.lower span (.place (.global f is o ty)))
      fun ok' l => StandsAt m ρ f is (start + q.start) part (ok ∧ ok') l := by
  have hstep : start + q.start ≤ bound := by
    have := q.within
    omega
  -- one case for each way to select a part, in the order of `select?`
  unfold Access.select? at hq
  split at hq
  · next name ms =>
    have hfind : ms.find? name = some (q.start, part) := by
      rw [Portion.find?_eq, hq]
      rfl
    exact gives_memberPlace hm ho hstep hfind
  · next name s n =>
    split at hq
    · next i hswizzle =>
      split at hq
      · cases hq
        have hrun : Lowering.member (.place (.global f is o (.vector s n))) name span
            = do return .place (← subPlace (.global f is o (.vector s n)) [.int i] span) := by
          simp only [Lowering.member, Place.ty, hswizzle]
        rw [Access.lower, hrun]
        exact gives_subPlace_vector hm ho hstep (fun ok => stands_int hm (by omega))
      · cases hq
    · cases hq
  · next i s n =>
    obtain ⟨x, hx, hq⟩ := map_eq_some_iff.1 hq
    cases hq
    exact gives_subPlace_vector hm ho hstep (fun ok => stands_below hx ok)
  · next i r c =>
    obtain ⟨x, hx, hq⟩ := map_eq_some_iff.1 hq
    cases hq
    exact gives_subPlace_row hm ho hbound hx span
  · next i j r c =>
    obtain ⟨x, hx, hq⟩ := bind_eq_some_iff.1 hq
    obtain ⟨y, hy, hq⟩ := map_eq_some_iff.1 hq
    cases hq
    exact gives_subPlace_entry hm ho hbound hx span hy
  · cases hq

theorem gives_follow {chain : List Access} {p : Portion ty part} {l : Lowered}
    (hp : reach? ρ chain ty = some ⟨part, p⟩) (hl : StandsAt m ρ f is start ty ok l)
    (hbound : start + ty.size ≤ bound) :
    Gives m ρ (follow span l chain) fun ok' l => StandsAt m ρ f is (start + p.start) part (ok ∧ ok') l := by
  induction chain generalizing ty start ok l with
  | nil =>
    cases hp
    obtain ⟨o, rfl, ho⟩ := hl
    exact .pure ⟨o, rfl, ho.imp And.left⟩
  | cons a chain ih =>
    obtain ⟨⟨mid, q⟩, hq, hp⟩ := bind_eq_some_iff.1 hp
    obtain ⟨⟨part', p'⟩, hp', heq⟩ := map_eq_some_iff.1 hp
    cases heq
    obtain ⟨o, rfl, ho⟩ := hl
    have hmid := q.within
    show Gives m ρ (a.lower span _ >>= fun l => follow span l chain) _
    refine (gives_lower hm span hq ho hbound).bind fun ok1 l hl => ?_
    have hbound' : start + q.start + mid.size ≤ bound := by omega
    refine (ih hp' hl hbound').imp fun ok2 l' hl' => ?_
    obtain ⟨o', rfl, ho'⟩ := hl'
    refine ⟨o', rfl, ?_⟩
    rw [add_assoc] at ho'
    exact ho'.imp fun h => ⟨⟨h.1, h.2.1⟩, h.2.2⟩

end Chains

end ArrayKernel.Field
