import Mathlib.Algebra.BigOperators.Group.List.Lemmas
import Mathlib.Algebra.BigOperators.Ring.List
import Mathlib.Algebra.Order.Ring.Nat
import ArrayKernel.Proofs.Field.Layout
import ArrayKernel.Proofs.Meaning.Iteration

/-!
# Loops over multi-indices

Unrolled, a loop over several extents has the tuples as constants; on the device it computes them
from one flat index. Both go through the tuples in the order of `box`.
-/

namespace ArrayKernel.Lowering

open IR Surface Meaning List

variable {is ns : List Nat} {index n : StmtId} {b b₁ : Builder} {op : BinOp} {dim o₁ o₂ o : Operand}
  {dims : List Operand} {f : Nat}

/-! ## 1. Boxes -/

/-- The tuples below the given extents, the last component running fastest. -/
def box : List Nat → List (List Nat)
  | [] => [[]]
  | n :: ns => (List.range n).flatMap fun i => (box ns).map (i :: ·)

/-- The digits of a number, the last extent being the base of the lowest, and the quotient that is
left over. -/
def digits : List Nat → Nat → List Nat × Nat
  | [], f => ([], f)
  | n :: ns, f => ((digits ns f).2 % n :: (digits ns f).1, (digits ns f).2 / n)

theorem length_box (ns : List Nat) : (box ns).length = ns.prod := by
  induction ns with
  | nil => rfl
  | cons n ns ih => simp [box, ih]

theorem mem_box : is ∈ box ns ↔ Forall₂ (· < ·) is ns := by
  induction ns generalizing is with
  | nil => simp [box]
  | cons n ns ih =>
    simp only [box, mem_flatMap, mem_range, mem_map, ih, forall₂_cons_right_iff]
    constructor
    · rintro ⟨i, hi, js, hjs, rfl⟩
      exact ⟨i, js, hi, hjs, rfl⟩
    · rintro ⟨i, js, hi, hjs, rfl⟩
      exact ⟨i, hi, js, hjs, rfl⟩

theorem box_sorted (ns : List Nat) : (box ns).Pairwise (List.Lex (· < ·)) := by
  induction ns with
  | nil => exact pairwise_singleton _ _
  | cons n ns ih =>
    rw [box, pairwise_flatMap]
    refine ⟨fun i _ => pairwise_map.2 (ih.imp fun h => .cons h), ?_⟩
    refine pairwise_lt_range.imp fun {i j} hij x hx y hy => ?_
    obtain ⟨is, -, rfl⟩ := mem_map.1 hx
    obtain ⟨js, -, rfl⟩ := mem_map.1 hy
    exact .rel hij

theorem digits_snd : (digits ns f).2 = f / ns.prod := by
  induction ns with
  | nil => exact (Nat.div_one f).symm
  | cons n ns ih =>
    show (digits ns f).2 / n = _
    rw [ih, Nat.div_div_eq_div_mul, prod_cons, Nat.mul_comm]

theorem getElem?_box (hpos : ∀ n ∈ ns, 0 < n) (f : Nat) :
    (box ns)[f % ns.prod]? = some (digits ns f).1 := by
  induction ns with
  | nil =>
    rw [prod_nil, Nat.mod_one]
    rfl
  | cons n ns ih =>
    obtain ⟨hn, hns⟩ := forall_mem_cons.1 hpos
    have hprod : 0 < ns.prod := Nat.pos_of_ne_zero (prod_ne_zero fun h => Nat.lt_irrefl 0 (hns 0 h))
    -- the first component is a quotient, and the others are those of the remainder
    have hsplit : f % (n * ns.prod) = f / ns.prod % n * ns.prod + f % ns.prod := by
      have hdiv := Nat.div_add_mod (f % (n * ns.prod)) ns.prod
      rw [Nat.mod_mul_left_div_self, Nat.mod_mul_left_mod] at hdiv
      rw [← hdiv, Nat.mul_comm]
    have hlt : f / ns.prod % n < n := Nat.mod_lt _ hn
    rw [prod_cons, hsplit, box, getElem?_flatMap_of_length (fun i _ => by rw [length_map, length_box])
      (Nat.mod_lt f hprod), getElem?_range hlt, Option.bind_some, getElem?_map, ih hns]
    show _ = some ((digits ns f).2 % n :: (digits ns f).1)
    rw [digits_snd]
    rfl

theorem positive_of_prod (h : 0 < ns.prod) : ∀ n ∈ ns, 0 < n := by
  intro n hn
  apply pos_of_ne_zero
  rintro rfl
  exact lt_irrefl 0 (prod_eq_zero hn ▸ h)

/-- The box lists the digits of all flat indices, one after the other. -/
theorem box_eq_map : box ns = (List.range ns.prod).map fun f => (digits ns f).1 := by
  apply ext_getElem?
  intro f
  by_cases hf : f < ns.prod
  · have hget := getElem?_box (positive_of_prod (Nat.zero_lt_of_lt hf)) f
    rw [Nat.mod_eq_of_lt hf] at hget
    rw [hget, getElem?_map, getElem?_range hf]
    rfl
  · rw [getElem?_eq_none (by rw [length_box]; omega), getElem?_eq_none (by simp; omega)]

/-! ## 2. Unrolled loops -/

def fromZero (ns : List Nat) : List (Int × Int) := ns.map fun (n : Nat) => (0, (n : Int))

theorem extent_fromZero {n : Nat} (h : n < 2 ^ 31) : extent (0, (n : Int)) = n := by
  rw [extent, Int.sub_zero, Int.bmod_eq_of_le (by omega) (by omega)]
  exact Int.toNat_natCast n

theorem lt_of_prod (hpos : 0 < ns.prod) (hlt : ns.prod < 2 ^ 31) : ∀ n ∈ ns, 0 < n ∧ n < 2 ^ 31 :=
  fun n hn => ⟨positive_of_prod hpos n hn, Nat.lt_of_le_of_lt (Nat.le_of_dvd hpos (dvd_prod hn)) hlt⟩

theorem iterations_fromZero (h : ns.prod < 2 ^ 31) : iterations (fromZero ns) = ns.prod := by
  have hprod : ((fromZero ns).map extent).prod = ns.prod := by
    rw [fromZero, map_map]
    by_cases hzero : ns.prod = 0
    · -- an extent of zero is zero in any arithmetic
      have hmem : (0 : Nat) ∈ ns.map (extent ∘ fun (n : Nat) => ((0 : Int), (n : Int))) :=
        mem_map.2 ⟨0, prod_eq_zero_iff.1 hzero, rfl⟩
      rw [hzero, prod_eq_zero hmem]
    · have hmap : ns.map (extent ∘ fun (n : Nat) => ((0 : Int), (n : Int))) = ns.map id := by
        apply map_congr_left
        intro n hn
        rw [Function.comp_apply, extent_fromZero (lt_of_prod (pos_of_ne_zero hzero) h n hn).2]
        rfl
      rw [hmap, map_id]
  rw [iterations, ← prod_eq_foldl, hprod]
  exact min_eq_left (by omega)

theorem indexAt_fromZero (hall : ∀ n ∈ ns, 0 < n ∧ n < 2 ^ 31) :
    indexAt (fromZero ns) f = ((digits ns f).1.map fun (i : Nat) => (i : Int), (digits ns f).2) := by
  induction ns with
  | nil => rfl
  | cons n ns ih =>
    obtain ⟨⟨hpos, hlt⟩, hns⟩ := forall_mem_cons.1 hall
    have hmax : max (extent (0, (n : Int))) 1 = n := by
      rw [extent_fromZero hlt]
      exact max_eq_left hpos
    show ((0 + (((indexAt (fromZero ns) f).2 % max (extent (0, (n : Int))) 1 : Nat) : Int)) ::
      (indexAt (fromZero ns) f).1, (indexAt (fromZero ns) f).2 / max (extent (0, (n : Int))) 1) = _
    rw [ih hns, hmax, zero_add]
    rfl

section Unrolled

variable {ctx : Context} {scope : Scope} {binding : Surface.Binding} {it : Iteration} {span : Span}
  {body : Scope → Lower Scope} {extents : List Expr} {b b₁ : Builder} {ns : List Nat}

def withIndex (scope : Scope) (binding : Surface.Binding) (it : Iteration)
    (body : Scope → Lower Scope) (is : List Nat) : Lower Unit := do
  let inner ← bindIndex binding (is.map fun (i : Nat) => Operand.int i) scope it.span
  discard <| inLoop .static (body inner)

/-- An unrolled loop lowers its body once for each tuple of the box, in their order. -/
theorem unroll_grid (hspace : it.space = .grid extents)
    (hextents : extents.mapM (lowerIntConst ctx scope "static loop bound") b = .ok
      (ns.map fun (n : Nat) => (n : Int)) b₁)
    (hprod : ns.prod < 2 ^ 31) (hlimit : ns.prod ≤ ctx.settings.unrollLimit) :
    unroll ctx scope binding it span body b = (box ns).forM (withIndex scope binding it body) b₁ := by
  have hbounds : staticBounds ctx scope it.space b = .ok (fromZero ns) b₁ := by
    rw [hspace]
    show (extents.mapM (lowerIntConst ctx scope "static loop bound") >>= fun es => pure (es.map fun e => (0, e))) b = _
    rw [bind_of_ok hextents]
    show EStateM.Result.ok ((ns.map fun (n : Nat) => (n : Int)).map fun e => (0, e)) b₁ = _
    rw [map_map]
    rfl
  rw [unroll, bind_of_ok hbounds, iterations_fromZero hprod, if_neg (not_lt.2 hlimit), box_eq_map]
  simp only [forM_eq_forM, forM_map]
  by_cases hzero : ns.prod = 0
  · rw [hzero]
    rfl
  · have hall := lt_of_prod (pos_of_ne_zero hzero) hprod
    have hsame : (fun flat => do
          let parts := (indexAt (fromZero ns) flat).1.map Operand.int
          let inner ← bindIndex binding parts scope it.span
          discard <| inLoop .static (body inner)) = fun flat => withIndex scope binding it body (digits ns flat).1 := by
      funext flat
      rw [withIndex, indexAt_fromZero hall, map_map]
      rfl
    rw [hsame]

end Unrolled

/-! ## 3. Components on the device -/

theorem ofNat_ne_zero {n : Nat} (hpos : 0 < n) (hn : n < 2 ^ 31) : Int32.ofNat n ≠ 0 := by
  intro h
  have hzero := congrArg Int32.toInt h
  rw [Int32.toInt_ofNat_of_lt hn, Int32.toInt_zero] at hzero
  omega

section Numbers

variable {f n : Nat} (hf : f < 2 ^ 31) (hpos : 0 < n) (hn : n < 2 ^ 31) (zero : ByZero)
include hf hpos hn

theorem mod_ofNat : Meaning.binary zero .mod (.ofNat f) (.ofNat n) = some (.ofNat (f % n)) := by
  have hlt := Nat.mod_lt f hpos
  simp only [Meaning.binary, if_neg (ofNat_ne_zero hpos hn), Option.some.injEq]
  apply Int32.toInt_inj.1
  rw [Int32.toInt_mod, Int32.toInt_ofNat_of_lt hf, Int32.toInt_ofNat_of_lt hn, Int32.toInt_ofNat_of_lt (by omega)]
  rfl

theorem floorDiv_ofNat :
    Meaning.binary zero .floorDiv (.ofNat f) (.ofNat n) = some (.ofNat (f / n)) := by
  simp only [Meaning.binary, if_neg (ofNat_ne_zero hpos hn)]
  rw [Int32.toInt_ofNat_of_lt hf, Int32.toInt_ofNat_of_lt hn, ← Int.ofNat_fdiv]
  rfl

end Numbers

def HoldsAll (os : List Operand) (ns : List Nat) (σ : Store) : Prop :=
  Forall₂ (fun o n => σ.value o = some (Int32.ofNat n)) os ns

theorem stable_value (h : IsOperand n o) (v : Int32) : Stable n fun _ σ => σ.value o = some v := by
  intro ρ σ σ' hs hv
  cases h with
  | const w => exact hv
  | stmt hid => exact (hs _ hid).1.trans hv

theorem stable_holdsAll {os : List Operand} (h : ∀ o ∈ os, IsOperand n o) (ns : List Nat) :
    Stable n fun _ σ => HoldsAll os ns σ := by
  intro ρ σ σ' hs hall
  induction hall with
  | nil => exact .nil
  | cons hv _ ih =>
    obtain ⟨ho, hos⟩ := forall_mem_cons.1 h
    exact .cons (stable_value ho _ ρ σ σ' hs hv) (ih hos)

theorem carries_binary {zero : ByZero} {x y v : Int32} (hv : Meaning.binary zero op x y = some v)
    (o₁ o₂ : Operand) : Carries zero n (fun _ σ => σ.value o₁ = some x ∧ σ.value o₂ = some y)
      [.op n (.binary op o₁ o₂ .i32 .i32)] fun _ σ => σ.value (.stmt n) = some v := by
  refine .op fun ρ σ ⟨hx, hy⟩ => ⟨σ.setValue n v, ?_, .setValue σ (le_refl n) v, by simp⟩
  simp only [step, hx, hy, Option.bind_some, hv, Option.map_some]

theorem intBinary_stmt (hadd : op ≠ .add) (hmul : op ≠ .mul) {r : StmtId} :
    intBinary op (.stmt r) o = emitValue (.binary op (.stmt r) o .i32 .i32) := by
  simp [intBinary, hadd, hmul]

def splitOff (id rest : StmtId) (dim : Operand) : List IR.Stmt :=
  [.op id (.binary .mod (.stmt rest) dim .i32 .i32), .op (id + 1) (.binary .floorDiv (.stmt rest) dim .i32 .i32)]

theorem carries_splitOff (zero : ByZero) {rest : StmtId} (hrest : rest < n) (hdim : IsOperand n dim)
    {r d : Nat} (hr : r < 2 ^ 31) (hpos : 0 < d) (hd : d < 2 ^ 31) :
    Carries zero n (fun _ σ => σ.value (.stmt rest) = some (.ofNat r)
      ∧ σ.value dim = some (.ofNat d)) (splitOff n rest dim)
      fun _ σ => σ.value (.stmt n) = some (.ofNat (r % d)) ∧ σ.value (.stmt (n + 1)) = some (.ofNat (r / d)) := by
  have hboth : Stable n fun _ σ => σ.value (.stmt rest) = some (.ofNat r) ∧ σ.value dim = some (.ofNat d) :=
    (stable_value (.stmt hrest) _).and (stable_value hdim _)
  have hmod := (carries_binary (mod_ofNat hr hpos hd zero) (.stmt rest) dim).frame hboth
  have hdiv := (carries_binary (floorDiv_ofNat hr hpos hd zero) (.stmt rest) dim).frame
    (stable_value (.stmt (Nat.lt_succ_self n)) (.ofNat (r % d)))
  refine ((hmod.imp (fun _ _ h => ⟨h, h⟩) fun _ _ h => ⟨h.2, h.1⟩).append hdiv (Nat.le_succ n)).imp (fun _ _ h => h) ?_
  exact fun _ _ h => ⟨h.2, h.1⟩

/-- What the statements are that split components off, and what they compute. -/
structure Splits (index : StmtId) (dims : List Operand) (b b' : Builder) (parts : List Operand)
    (rest : StmtId) (code : List IR.Stmt) : Prop where
  emits : Emits b b' code
  divisions : ∀ s ∈ code, ∃ id rest dim, s ∈ splitOff id rest dim
  rest_lt : rest < b'.nextId
  parts_lt : ∀ o ∈ parts, IsOperand b'.nextId o
  carries : ∀ (zero : ByZero) (ns : List Nat) (f : Nat), f < 2 ^ 31 → (∀ n ∈ ns, 0 < n ∧ n < 2 ^ 31) →
    Carries zero b.nextId (fun _ σ => σ.value (.stmt index) = some (.ofNat f) ∧ HoldsAll dims ns σ) code
      fun _ σ => HoldsAll parts (digits ns f).1 σ ∧ σ.value (.stmt rest) = some (.ofNat (digits ns f).2)

namespace Splits

variable {index : StmtId} {dims parts : List Operand} {b b' b₂ : Builder} {rest : StmtId}
  {code : List IR.Stmt}

theorem nil (hindex : index < b.nextId) : Splits index [] b b [] index [] where
  emits := .refl b
  divisions := forall_mem_nil _
  rest_lt := hindex
  parts_lt := forall_mem_nil _
  carries _ ns f _ _ := .nil fun _ σ ⟨hf, hns⟩ => by
    cases hns
    exact ⟨.nil, hf⟩

theorem cons (h : Splits index dims b b' parts rest code) (hdim : IsOperand b.nextId dim)
    (hemits : Emits b' b₂ (splitOff b'.nextId rest dim)) (hnext : b₂.nextId = b'.nextId + 2) :
    Splits index (dim :: dims) b b₂ (.stmt b'.nextId :: parts) (b'.nextId + 1)
      (code ++ splitOff b'.nextId rest dim) where
  emits := h.emits.trans hemits
  divisions s hs := by
    rcases mem_append.1 hs with hs | hs
    · exact h.divisions s hs
    · exact ⟨_, _, _, hs⟩
  rest_lt := hnext ▸ Nat.lt_succ_self _
  parts_lt := by
    rw [hnext]
    refine forall_mem_cons.2 ⟨.stmt (Nat.lt_add_of_pos_right Nat.zero_lt_two), fun o ho => ?_⟩
    exact (h.parts_lt o ho).mono (Nat.le_add_right _ 2)
  carries zero ns f hf hns := by
    cases ns with
    | nil => exact fun _ _ _ hσ => nomatch hσ.2
    | cons n ns =>
      obtain ⟨⟨hpos, hlt⟩, hns⟩ := forall_mem_cons.1 hns
      have hleft : (digits ns f).2 < 2 ^ 31 := by
        rw [digits_snd]
        exact Nat.lt_of_le_of_lt (Nat.div_le_self f _) hf
      -- the extent keeps its value while the lower components are split off, and these while the
      -- next one is
      have hlower := (h.carries zero ns f hf hns).frame (stable_value hdim (.ofNat n))
      have hnext := (carries_splitOff zero h.rest_lt (hdim.mono h.emits.nextId) hleft hpos hlt).frame
        (stable_holdsAll h.parts_lt (digits ns f).1)
      have hall := (hlower.imp (fun _ _ hσ => hσ) fun _ _ hσ => ⟨⟨hσ.1.2, hσ.2⟩, hσ.1.1⟩).append hnext h.emits.nextId
      refine hall.imp (fun _ σ hσ => ?_) fun _ σ hσ => ⟨.cons hσ.1.1 hσ.2, hσ.1.2⟩
      obtain ⟨hindex, hdims⟩ := hσ
      cases hdims with
      | cons hd hds => exact ⟨⟨hindex, hds⟩, hd⟩

end Splits

theorem unflattenTail_splits (hindex : index < b.nextId)
    (hdims : ∀ o ∈ dims, IsOperand b.nextId o) :
    ∃ parts rest b' code,
      unflattenTail (.stmt index) dims b = .ok (parts, .stmt rest) b' ∧ Splits index dims b b' parts rest code := by
  induction dims with
  | nil => exact ⟨[], index, b, [], rfl, .nil hindex⟩
  | cons dim dims ih =>
    obtain ⟨hdim, hdims⟩ := forall_mem_cons.1 hdims
    obtain ⟨parts, rest, b', code, hrun, hsplits⟩ := ih hdims
    have hlower : unflattenTail (.stmt index) (dim :: dims) b = .ok (.stmt b'.nextId :: parts, .stmt (b'.nextId + 1))
        { b' with nextId := b'.nextId + 2, block := b'.block ++ (splitOff b'.nextId rest dim).toArray } := by
      rw [unflattenTail, bind_of_ok hrun]
      rfl
    refine ⟨_, _, _, _, hlower, hsplits.cons hdim ⟨?_, Nat.le_add_right _ 2, rfl⟩ rfl⟩
    simp

theorem digits_of_getElem? {n : Nat} (h : (box (n :: ns))[f]? = some is) :
    f < (n :: ns).prod ∧ is = (digits ns f).2 :: (digits ns f).1 := by
  obtain ⟨hf, rfl⟩ := List.getElem?_eq_some_iff.1 h
  rw [length_box] at hf
  refine ⟨hf, ?_⟩
  have hlt : (digits ns f).2 < n := by
    rw [digits_snd]
    exact Nat.div_lt_of_lt_mul (by rwa [prod_cons, Nat.mul_comm] at hf)
  simp only [box_eq_map, getElem_map, getElem_range]
  show (digits ns f).2 % n :: (digits ns f).1 = _
  rw [Nat.mod_eq_of_lt hlt]

/-! ## 4. The number of iterations on the device -/

def Multiplies (o₁ o₂ o : Operand) (b b' : Builder) : Prop :=
  IsOperand b'.nextId o ∧ ∃ code, Emits b b' code ∧ ∀ (zero : ByZero) (x y : Int32),
    Carries zero b.nextId (fun _ σ => σ.value o₁ = some x ∧ σ.value o₂ = some y) code fun _ σ =>
      σ.value o = some (x * y)

theorem emitMul_multiplies (h : intBinary .mul o₁ o₂ = emitValue (.binary .mul o₁ o₂ .i32 .i32)) :
    ∃ o b', intBinary .mul o₁ o₂ b = .ok o b' ∧ Multiplies o₁ o₂ o b b' := by
  refine ⟨.stmt b.nextId, { b with nextId := b.nextId + 1, block := b.block.push (.op b.nextId _) }, by rw [h]; rfl,
    .stmt (Nat.lt_succ_self _), [.op b.nextId (.binary .mul o₁ o₂ .i32 .i32)], ⟨by simp, Nat.le_succ _, rfl⟩, ?_⟩
  exact fun zero x y => carries_binary rfl o₁ o₂

theorem intBinary_mul (h1 : IsOperand b.nextId o₁) (h2 : IsOperand b.nextId o₂) :
    ∃ o b', intBinary .mul o₁ o₂ b = .ok o b' ∧ Multiplies o₁ o₂ o b b' := by
  cases h1 with
  | const v =>
    cases h2 with
    | const w =>
      refine ⟨.const (.i32 (v * w)), b, rfl, .const _, [], .refl b, fun zero x y => .nil fun _ σ hσ => ?_⟩
      obtain ⟨hx, hy⟩ := hσ
      cases hx
      cases hy
      rfl
    | stmt hid =>
      by_cases hv : v = 1
      · subst hv
        refine ⟨.stmt _, b, rfl, .stmt hid, [], .refl b, fun zero x y => .nil fun _ σ hσ => ?_⟩
        obtain ⟨hx, hy⟩ := hσ
        cases hx
        rw [hy, Int32.one_mul]
      · exact emitMul_multiplies (by simp [intBinary, isInt, hv])
  | stmt hid =>
    cases h2 with
    | const w =>
      by_cases hw : w = 1
      · subst hw
        refine ⟨.stmt _, b, rfl, .stmt hid, [], .refl b, fun zero x y => .nil fun _ σ hσ => ?_⟩
        obtain ⟨hx, hy⟩ := hσ
        cases hy
        rw [hx, Int32.mul_one]
      · exact emitMul_multiplies (by simp [intBinary, isInt, hw])
    | stmt hid' => exact emitMul_multiplies (by simp [intBinary, isInt])

theorem foldlM_mul (acc : Operand) (hacc : IsOperand b.nextId acc)
    (hdims : ∀ o ∈ dims, IsOperand b.nextId o) :
    ∃ total b', dims.foldlM (intBinary .mul) acc b = .ok total b'
      ∧ IsOperand b'.nextId total ∧ ∃ code, Emits b b' code ∧ ∀ (zero : ByZero) (k : Nat) (ns : List Nat),
        Carries zero b.nextId (fun _ σ => σ.value acc = some (.ofNat k) ∧ HoldsAll dims ns σ) code
          fun _ σ => σ.value total = some (.ofNat (k * ns.prod)) := by
  induction dims generalizing acc b with
  | nil =>
    refine ⟨acc, b, rfl, hacc, [], .refl b, fun zero k ns => .nil fun _ σ hσ => ?_⟩
    obtain ⟨hk, hns⟩ := hσ
    cases hns
    rw [hk, prod_nil, mul_one]
  | cons dim dims ih =>
    obtain ⟨hdim, hdims⟩ := forall_mem_cons.1 hdims
    obtain ⟨acc', b₁, hrun1, hacc', code, hemits, hcarries⟩ := intBinary_mul hacc hdim
    have hdims1 : ∀ o ∈ dims, IsOperand b₁.nextId o := fun o ho => (hdims o ho).mono hemits.nextId
    obtain ⟨total, b₂, hrun2, htotal, code', hemits', hcarries'⟩ := ih acc' hacc' hdims1
    refine ⟨total, b₂, ?_, htotal, code ++ code', hemits.trans hemits', fun zero k ns => ?_⟩
    · rw [foldlM_cons, bind_of_ok hrun1, hrun2]
    · cases ns with
      | nil => exact fun _ _ _ hσ => nomatch hσ.2
      | cons n ns =>
        have hfirst := (hcarries zero (.ofNat k) (.ofNat n)).frame (stable_holdsAll hdims ns)
        rw [← Int32.ofNat_mul] at hfirst
        have hall := hfirst.append (hcarries' zero (k * n) ns) hemits.nextId
        rw [prod_cons, ← mul_assoc]
        refine hall.imp (fun _ σ hσ => ?_) fun _ _ hσ => hσ
        obtain ⟨hk, hns⟩ := hσ
        cases hns with
        | cons hd hds => exact ⟨⟨hk, hd⟩, hds⟩

def lowerExtent (ctx : Context) (scope : Scope) (e : Expr) : Lower Operand := do
  intOperand (← lowerExpr ctx scope e) e.span

theorem loopBounds_grid {ctx : Context} {scope : Scope} {extents : List Expr}
    (hextents : extents.mapM (lowerExtent ctx scope) b = .ok dims b₁)
    (hdims : ∀ o ∈ dims, IsOperand b₁.nextId o) : ∃ total b₂ code,
      loopBounds ctx scope (.grid extents) b = .ok (.int 0, total, dims) b₂ ∧ Emits b₁ b₂ code
      ∧ ∀ (zero : ByZero) (ns : List Nat), Carries zero b₁.nextId (fun _ σ => HoldsAll dims ns σ)
          code fun _ σ => σ.value total = some (.ofNat ns.prod) := by
  obtain ⟨total, b₂, hrun, -, code, hemits, hcarries⟩ := foldlM_mul (.int 1) (.const _) hdims
  refine ⟨total, b₂, code, ?_, hemits, fun zero ns => ?_⟩
  · show (extents.mapM (lowerExtent ctx scope) >>= fun dims => do
      let total ← dims.foldlM (intBinary .mul) (.int 1)
      return (Operand.int 0, total, dims)) b = _
    rw [bind_of_ok hextents, bind_of_ok hrun]
    rfl
  · refine (hcarries zero 1 ns).imp (fun _ σ hσ => ⟨rfl, hσ⟩) fun _ σ hσ => ?_
    rwa [one_mul] at hσ

/-! ## 5. The two orders -/

/-- Loops over given extents run through the tuples of the box, whether they are unrolled or run on
the device. -/
structure VisitsBox (ns : List Nat) : Prop where
  length : (box ns).length = ns.prod
  mem : ∀ is, is ∈ box ns ↔ Forall₂ (· < ·) is ns
  sorted : (box ns).Pairwise (List.Lex (· < ·))
  unrolled : ∀ {ctx : Context} {scope : Scope} {binding : Surface.Binding} {it : Iteration} {span : Span}
    {body : Scope → Lower Scope} {extents : List Expr} {b b₁ : Builder}, it.space = .grid extents →
    extents.mapM (lowerIntConst ctx scope "static loop bound") b = .ok (ns.map fun (n : Nat) => (n : Int)) b₁ →
    ns.prod ≤ ctx.settings.unrollLimit →
    unroll ctx scope binding it span body b = (box ns).forM (withIndex scope binding it body) b₁
  total : ∀ {ctx : Context} {scope : Scope} {extents : List Expr} {b b₁ : Builder}
    {dims : List Operand}, extents.mapM (lowerExtent ctx scope) b = .ok dims b₁ →
    (∀ o ∈ dims, IsOperand b₁.nextId o) → ∃ total b₂ code,
      loopBounds ctx scope (.grid extents) b = .ok (.int 0, total, dims) b₂ ∧ Emits b₁ b₂ code
      ∧ ∀ zero : ByZero, Carries zero b₁.nextId (fun _ σ => HoldsAll dims ns σ) code
          fun _ σ => σ.value total = some (.ofNat ns.prod)
  components : ∀ {index : StmtId} {b : Builder} {dims : List Operand}, index < b.nextId →
    (∀ o ∈ dims, IsOperand b.nextId o) → dims.length = ns.length → ∃ parts b' code,
      unflatten (.stmt index) dims b = .ok parts b' ∧ Emits b b' code
      ∧ (∀ s ∈ code, ∃ id rest dim, s ∈ splitOff id rest dim)
      ∧ ∀ (zero : ByZero) (f : Nat) (is : List Nat), (box ns)[f]? = some is →
        Carries zero b.nextId (fun _ σ => σ.value (.stmt index) = some (.ofNat f) ∧
          HoldsAll dims ns σ) code fun _ σ => HoldsAll parts is σ

/-- While the number of tuples fits a 32-bit integer, no product on the device overflows. -/
theorem visitsBox {ns : List Nat} (hne : ns ≠ []) (hprod : ns.prod < 2 ^ 31) : VisitsBox ns where
  length := length_box ns
  mem _ := mem_box
  sorted := box_sorted ns
  unrolled hspace hextents hlimit := unroll_grid hspace hextents hprod hlimit
  total hextents hdims := by
    obtain ⟨total, b₂, code, hrun, hemits, hcarries⟩ := loopBounds_grid hextents hdims
    exact ⟨total, b₂, code, hrun, hemits, fun zero => hcarries zero ns⟩
  components := by
    intro index b dims hindex hdims hlength
    cases ns with
    | nil => exact absurd rfl hne
    | cons n ns =>
      cases dims with
      | nil => cases hlength
      | cons dim dims =>
        obtain ⟨parts, rest, b', code, hrun, hsplits⟩ :=
          unflattenTail_splits hindex (forall_mem_cons.1 hdims).2
        refine ⟨.stmt rest :: parts, b', code, ?_, hsplits.emits, hsplits.divisions, ?_⟩
        · rw [unflatten, bind_of_ok hrun]
          rfl
        · intro zero f is his
          -- the components are the digits of the position
          obtain ⟨hf, rfl⟩ := digits_of_getElem? his
          have hall := lt_of_prod (Nat.zero_lt_of_lt hf) hprod
          refine (hsplits.carries zero ns f (lt_trans hf hprod) (forall_mem_cons.1 hall).2).imp ?_
            fun _ σ hσ => .cons hσ.2 hσ.1
          intro ρ σ hσ
          cases hσ.2 with
          | cons _ hds => exact ⟨hσ.1, hds⟩

/-- Loops over two, three and five. -/
theorem visitsBox_thirty :
    [2, 3, 5] ≠ [] ∧ [2, 3, 5].prod < 2 ^ 31 ∧ (box [2, 3, 5])[19]? = some [1, 0, 4]
    ∧ VisitsBox [2, 3, 5] :=
  ⟨by decide, by decide, by decide, visitsBox (by decide) (by decide)⟩

end ArrayKernel.Lowering
