import ArrayKernel.Proofs.Shader.SlotCode

/-!
# Runs of slot accesses

The scalars of a part are overwritten one after the other, in a variable or in words: `Portion.upTo`
counts them, and `Home.run_store` is what they come to. A load reads them back
(`Home.formula_load`).
-/

namespace ArrayKernel.Field

/-! ## 1. Parts that are overwritten -/

namespace Portion

variable {ty part : Ty} {α : Type} {p : Portion ty part} {w : Leaf part → α} {g : Leaf ty → α}
  {l : Leaf ty}

theorem leaf_injective : Function.Injective p.leaf := by
  intro l l' h
  apply Leaf.offset_injective
  have hoffset := congrArg Leaf.offset h
  rw [p.offset_leaf, p.offset_leaf] at hoffset
  omega

theorem exists_leaf_iff :
    (∃ k, p.leaf k = l) ↔ p.start ≤ l.offset ∧ l.offset < p.start + part.size := by
  constructor
  · rintro ⟨k, rfl⟩
    have hlt := k.offset_lt
    rw [p.offset_leaf]
    omega
  · intro h
    obtain ⟨k, hk⟩ := Leaf.exists_offset part (l.offset - p.start) (by omega)
    refine ⟨k, Leaf.offset_injective ?_⟩
    rw [p.offset_leaf]
    omega

noncomputable def overwrite (p : Portion ty part) (w : Leaf part → α) (g : Leaf ty → α) : Leaf ty → α :=
  Function.extend p.leaf w g

@[simp] theorem overwrite_leaf (p : Portion ty part) (w : Leaf part → α) (g : Leaf ty → α)
    (k : Leaf part) : p.overwrite w g (p.leaf k) = w k := p.leaf_injective.extend_apply w g k

theorem overwrite_of_outside
    (h : ¬(p.start ≤ l.offset ∧ l.offset < p.start + part.size)) : p.overwrite w g l = g l :=
  Function.extend_apply' w g l fun hl => h (p.exists_leaf_iff.1 hl)

/-- The scalars after so many of a part have been overwritten, one after the other. -/
noncomputable def upTo (p : Portion ty part) (w : Leaf part → α) (g : Leaf ty → α) (n : Nat) : Leaf ty → α :=
  fun l => if l.offset < p.start + n then p.overwrite w g l else g l

theorem upTo_zero : p.upTo w g 0 = g := by
  funext l
  by_cases h : l.offset < p.start + 0
  · rw [upTo, if_pos h]
    exact p.overwrite_of_outside (by omega)
  · exact if_neg h

theorem upTo_size : p.upTo w g part.size = p.overwrite w g := by
  funext l
  by_cases h : l.offset < p.start + part.size
  · exact if_pos h
  · rw [upTo, if_neg h]
    exact (p.overwrite_of_outside (by omega)).symm

theorem upTo_succ (p : Portion ty part) (w : Leaf part → α) (g : Leaf ty → α) (k : Leaf part)
    (l : Leaf ty) :
    p.upTo w g (k.offset + 1) l = if l.offset = (p.leaf k).offset then w k else p.upTo w g k.offset l := by
  have hk := p.offset_leaf k
  by_cases h : l.offset = (p.leaf k).offset
  · rw [if_pos h, Leaf.offset_injective h, upTo, if_pos (by omega), overwrite_leaf]
  · rw [if_neg h, upTo, upTo]
    by_cases hlt : l.offset < p.start + k.offset
    · rw [if_pos hlt, if_pos (by omega)]
    · rw [if_neg hlt, if_neg (by omega)]

end Portion

/-- The part that numbers select: all of a value, a component of a vector, a row of a matrix, or an
entry of one. -/
inductive Selects : (ty : Ty) → List Nat → {part : Ty} → Portion ty part → Prop where
  | whole (ty : Ty) : Selects ty [] (.whole ty)
  | component {s : Scalar} {n : Dim} (i : Fin n.toNat) : Selects (.vector s n) [i] (.component i)
  | row {r c : Dim} (i : Fin r.toNat) : Selects (.matrix r c) [i] (.row i)
  | entry {r c : Dim} (i : Fin r.toNat) (j : Fin c.toNat) : Selects (.matrix r c) [i, j] (.entry i j)

theorem Selects.isStruct {ty part : Ty} {ks : List Nat} {p : Portion ty part} (h : Selects ty ks p)
    (hty : ty.isStruct = false) : part.isStruct = false := by
  cases h with
  | whole ty => exact hty
  | _ => rfl

end ArrayKernel.Field

namespace ArrayKernel.Shader

open IR ArrayKernel.Field Option

variable {t : Target} {e : Emitter} {m : Memory} {ty : Ty} {ks : List Nat} {a x : LinearIndex}
  {k offset rows cols : Nat} {o : Operand} {α : Type} {w : UInt32} {s : Scalar} {name : String}
  {is : List Operand} {f : Nat → α} {v : Term}

/-! ## 2. Words of a slot -/

def Indexes (t : Target) (e : Emitter) (m : Memory) (is : List Operand) (ks : List Nat) : Prop :=
  List.Forall₂ (fun o k => m.index (subscript t e o) = some k) is ks

theorem ofInt_eq_of_modEq {a b : Int} (h : a ≡ b [ZMOD 2 ^ 32]) :
    Int32.ofInt a = Int32.ofInt b := by
  apply Int32.toInt_inj.1
  rw [Int32.toInt_ofInt, Int32.toInt_ofInt, ← Int.emod_bmod a, ← Int.emod_bmod b]
  exact congrArg (Int.bmod · (2 ^ 32)) h

namespace Memory

def env (m : Memory) (x : String) : Int := ((m.int? x).getD 0).toInt

def Knows (m : Memory) (x : LinearIndex) : Prop := ∀ y ∈ x.terms, (m.int? y.1).isSome

theorem address_eq (h : m.Knows x) : m.address x = some (Int32.ofInt (x.value m.env)) := by
  have hterms : x.terms.mapM (fun y => (m.int? y.1).map (· * Int32.ofInt y.2.toInt))
      = some (x.terms.map fun y => .ofInt (m.env y.1 * y.2.toInt)) := by
    apply mapM_eq_map
    intro y hy
    obtain ⟨v, hv⟩ := isSome_iff_exists.1 (h y hy)
    rw [env, hv, map_some, getD_some, Int32.ofInt_mul, Int32.ofInt_toInt]
  have hsum : ∀ vs : List Int, (vs.map Int32.ofInt).foldr (· + ·) 0 = Int32.ofInt vs.sum := by
    intro vs
    induction vs with
    | nil => rfl
    | cons v vs ih => rw [List.map_cons, List.foldr_cons, ih, List.sum_cons, Int32.ofInt_add]
  rw [address, hterms, map_some, LinearIndex.value, Int32.ofInt_add, ← hsum, List.map_map]
  rfl

theorem toInt_of_natural? {v : Int32} (h : natural? v = some k) : v.toInt = k := by
  rw [natural?] at h
  split at h
  · next hv =>
    cases h
    exact (Int.toNat_of_nonneg (Int32.le_iff_toInt_le.1 hv)).symm
  · cases h

theorem operandValue_of_index (h : m.index (subscript t e o) = some k) :
    operandValue m.env t e o = k := by
  match o with
  | .const (.i32 v) => exact toInt_of_natural? h
  | .const (.u32 v) =>
    cases h
    rfl
  | .const (.f32 v) => cases h
  | .stmt id =>
    obtain ⟨v, hv, hk⟩ := bind_eq_some_iff.1 h
    show ((m.int? (operand (.stmt id) t e).1).getD 0).toInt = k
    rw [hv]
    exact toInt_of_natural? hk

theorem Knows.add (hx : m.Knows x) (h : m.index (subscript t e o) = some k)
    (scale : Int64) : m.Knows (x.add o scale (indexText o t e).1) := by
  match o with
  | .const (.i32 v) | .const (.u32 v) => exact hx
  | .const (.f32 v) => cases h
  | .stmt id =>
    -- the only operand that is written by its name
    obtain ⟨v, hv, -⟩ := bind_eq_some_iff.1 h
    intro y hy
    rcases List.mem_append.1 hy with hy | hy
    · exact hx y hy
    · cases List.mem_singleton.1 hy
      exact isSome_iff_exists.2 ⟨v, hv⟩

end Memory

section Address

variable {ty part : Ty} {is : List Operand} {ks : List Nat} {p : Portion ty part}
  (his : Indexes t e m is ks) (hp : Selects ty ks p) (offset : Nat)
include his hp

/-- The sum that is written for a part of a slot leads to its first word. -/
theorem tracks_slotIndex :
    Tracks (2 ^ 32) m.env (slotIndex t e offset ty is) (offset + p.start) ∧ m.Knows (slotIndex t e offset ty is) := by
  have hkeeps : ∀ n, Keeps (2 ^ 32) 64 n := fun n => .inl (dvd_refl _)
  have hbase : Tracks (2 ^ 32) m.env { offset := Int64.ofNat offset } offset := by
    have hzero : Tracks (2 ^ 32) m.env {} 0 := Tracks.zero
    have hshift := hzero.shift (hkeeps (0 + offset))
    rw [zero_add, LinearIndex.shift] at hshift
    rwa [show (0 : Int64) + Int64.ofNat offset = Int64.ofNat offset from Int64.zero_add _] at hshift
  have hnone : m.Knows { offset := Int64.ofNat offset } := List.forall_mem_nil _
  have hvalue : ∀ {o : Operand} {k : Nat}, m.index (subscript t e o) = some k →
      operandValue m.env t e o ≡ k [ZMOD 2 ^ 32] :=
    fun h => congrArg (· % 2 ^ 32) (Memory.operandValue_of_index h)
  cases hp with
  | whole ty =>
    cases his
    exact ⟨hbase, hnone⟩
  | component i =>
    cases his with
    | cons hi htail =>
      cases htail
      have hfirst := hbase.add (hvalue hi) (hkeeps 1) (hkeeps _)
      rw [mul_one] at hfirst
      exact ⟨hfirst, hnone.add hi _⟩
  | @row r c i =>
    cases his with
    | cons hi htail =>
      cases htail
      exact ⟨hbase.add (hvalue hi) (hkeeps c.toNat) (hkeeps _), hnone.add hi _⟩
  | @entry r c i j =>
    cases his with
    | cons hi htail =>
      cases htail with
      | cons hj htail =>
        cases htail
        have hfirst := hbase.add (hvalue hi) (hkeeps c.toNat) (hkeeps _)
        have hsecond := hfirst.add (hvalue hj) (hkeeps 1) (hkeeps _)
        rw [mul_one, add_assoc] at hsecond
        exact ⟨hsecond, (hnone.add hi _).add hj _⟩

theorem address_slotIndex (k : Nat) :
    m.address ((slotIndex t e offset ty is).shift k) = some (Int32.ofNat (offset + (p.start + k))) := by
  obtain ⟨htracks, hknows⟩ := tracks_slotIndex his hp offset
  have hshift := htracks.shift (k := k) (.inl (dvd_refl _))
  rw [Memory.address_eq (show m.Knows ((slotIndex t e offset ty is).shift k) from hknows),
    ofInt_eq_of_modEq hshift.value, ← add_assoc]
  rfl

end Address

/-! ## 3. Loads -/

theorem byColumn_range : byColumn rows cols ((List.range (rows * cols)).map f)
      = (List.range cols).flatMap fun j => (List.range rows).map fun i => f (i * cols + j) := by
  apply List.flatMap_congr
  intro j hj
  apply List.filterMap_eq_map_iff_forall_eq_some.2
  intro i hi
  rw [List.getElem?_map, List.getElem?_range (row_add_lt (List.mem_range.1 hi) (List.mem_range.1 hj))]
  rfl

theorem length_byColumn_range :
    (byColumn rows cols ((List.range (rows * cols)).map f)).length = rows * cols := by
  rw [byColumn_range, List.length_flatMap]
  simp [mul_comm]

theorem getElem?_byColumn_range (f : Nat → α) {i j : Nat} (hi : i < rows) (hj : j < cols) :
    (byColumn rows cols ((List.range (rows * cols)).map f))[j * rows + i]? = some (f (i * cols + j)) := by
  rw [byColumn_range, getElem?_flatMap_of_length (fun _ _ => by rw [List.length_map, List.length_range]) hi,
    List.getElem?_range hj, bind_some, List.getElem?_map, List.getElem?_range hi]
  rfl

theorem term_decoded {a : Term} (h : m.term a = some (.ofScalar .i32 w)) :
    m.term (decoded a s) = some (.ofScalar s w) := by
  cases s with
  | i32 => exact h
  | _ =>
    show (m.term a).bind _ = _
    rw [h]
    rfl

theorem words_itself (w : Leaf (.scalar s) → UInt32) : w = fun _ => w .itself := by
  funext l
  cases l
  rfl

theorem formula_loadWords (hty : ty.isStruct = false) {word : Leaf ty → UInt32}
    (h : ∀ l : Leaf ty, m.term (.load (x.shift l.offset)) = some (.ofScalar .i32 (word l))) :
    m.formula (loadWords x ty) = some ⟨ty, word⟩ := by
  cases ty with
  | scalar s =>
    rw [words_itself word]
    exact term_decoded (h .itself)
  | vector s n =>
    apply Memory.formula_make (by rw [List.length_map, List.length_range])
    intro l
    cases l with
    | component i =>
      show ((List.map _ (List.range n.toNat))[i.val]?).bind _ = _
      rw [List.getElem?_map, List.getElem?_range i.isLt]
      exact term_decoded (h (.component i))
  | matrix r c =>
    -- the words are row by row, and the arguments column by column
    apply Memory.formula_make length_byColumn_range
    intro l
    cases l with
    | entry i j =>
      show ((byColumn _ _ (List.map _ (List.range (r.toNat * c.toNat))))[j.val * r.toNat + i.val]?).bind _ = _
      rw [getElem?_byColumn_range _ i.isLt j.isLt]
      exact term_decoded (h (.entry i j))
  | struct ms => cases hty

section Loads

variable {ty part : Ty} {is : List Operand} {ks : List Nat} {p : Portion ty part}
  (his : Indexes t e m is ks) (hp : Selects ty ks p) {g : Leaf ty → UInt32}
include his hp

theorem formula_readPart (h : m.vars name = some ⟨ty, g⟩) :
    m.formula (readPart name ty (is.map (subscript t e))) = some ⟨part, g ∘ p.leaf⟩ := by
  -- a component of the variable, and an entry of it
  have hitem : ∀ {i : Subscript} {k : Nat}, m.index i = some k →
      m.term (.item (.name name) i) = Content.item? ⟨ty, g⟩ k := by
    intro i k hi
    show (m.vars name).bind (fun x => (m.index i).bind x.item?) = _
    rw [h, bind_some, hi]
    rfl
  have hitems : ∀ {i j : Subscript} {k l : Nat}, m.index i = some k → m.index j = some l →
      m.term (.item (.item (.name name) j) i) = (Content.item? ⟨ty, g⟩ l).bind (Content.item? · k) := by
    intro i j k l hi hj
    show (m.term (.item (.name name) j)).bind (fun x => (m.index i).bind x.item?) = _
    rw [hitem hj, hi]
    rfl
  cases hp with
  | whole ty =>
    cases his
    cases ty <;> exact h
  | component i =>
    cases his with
    | cons hi htail =>
      cases htail
      exact (hitem hi).trans (Content.item?_vector g i)
  | @row r c i =>
    cases his with
    | cons hi htail =>
      cases htail
      apply Memory.formula_make (by rw [List.length_map, List.length_range]; rfl)
      intro l
      cases l with
      | component j =>
        show ((List.map _ (List.range c.toNat))[j.val]?).bind _ = _
        rw [List.getElem?_map, List.getElem?_range j.isLt]
        exact (hitems hi rfl).trans Content.item?_item?
  | entry i j =>
    cases his with
    | cons hi htail =>
      cases htail with
      | cons hj htail =>
        cases htail
        exact (hitems hi hj).trans Content.item?_item?

theorem formula_loadWords_slot (hpart : part.isStruct = false)
    (h : ∀ l : Leaf ty, m.words (Int32.ofNat (offset + l.offset)) = some (g l)) :
    m.formula (loadWords (slotIndex t e offset ty is) part) = some ⟨part, g ∘ p.leaf⟩ := by
  apply formula_loadWords hpart
  intro l
  show (m.address ((slotIndex t e offset ty is).shift l.offset)).bind _ = _
  rw [address_slotIndex his hp offset, bind_some, ← p.offset_leaf, h]
  rfl

end Loads

/-! ## 4. What a store changes -/

namespace Home

def Holds (ty : Ty) (m : Memory) (g : Leaf ty → UInt32) : Home → Prop
  | .variable name => m.vars name = some ⟨ty, g⟩
  | .words offset => ∀ l : Leaf ty, m.words (Int32.ofNat (offset + l.offset)) = some (g l)

def Elsewhere (ty : Ty) (m m' : Memory) : Home → Prop
  | .variable name => (∀ x, x ≠ name → m'.vars x = m.vars x) ∧ m'.words = m.words
  | .words offset => m'.vars = m.vars ∧ ∀ a, (∀ k < ty.size, a ≠ Int32.ofNat (offset + k)) → m'.words a = m.words a

def Apart (t : Target) (e : Emitter) (os : List Operand) : Home → Prop
  | .variable name => ∀ id, .stmt id ∈ os → (operand (.stmt id) t e).1 ≠ name
  | .words _ => True

/-- The slot has come to hold the given words, and nothing else has changed. -/
structure Wrote (home : Home) (ty : Ty) (m m' : Memory) (g : Leaf ty → UInt32) : Prop where
  holds : home.Holds ty m' g
  elsewhere : home.Elsewhere ty m m'

end Home

section Elsewhere

variable {ty : Ty} {home : Home} {m' : Memory} {os : List Operand} (h : home.Elsewhere ty m m')
  (hapart : home.Apart t e os)
include h hapart

theorem Home.Elsewhere.vars_operand {id : StmtId} (hid : .stmt id ∈ os) :
    m'.vars (operand (.stmt id) t e).1 = m.vars (operand (.stmt id) t e).1 := by
  cases home with
  | «variable» name => exact h.1 _ (hapart id hid)
  | words offset => rw [h.1]

theorem Home.Elsewhere.term_valueTerm (ho : o ∈ os) :
    m'.term (valueTerm t e o) = m.term (valueTerm t e o) := by
  cases o with
  | const l => rfl
  | stmt id => exact h.vars_operand hapart ho

theorem Home.Elsewhere.index_subscript (ho : o ∈ os) :
    m'.index (subscript t e o) = m.index (subscript t e o) := by
  cases o with
  | const l => cases l <;> rfl
  | stmt id =>
    show (((m'.vars _).bind _).map _).bind _ = (((m.vars _).bind _).map _).bind _
    rw [h.vars_operand hapart ho]

theorem Home.Elsewhere.indexes (hsub : is ⊆ os) (his : Indexes t e m is ks) :
    Indexes t e m' is ks := by
  induction his with
  | nil => exact .nil
  | cons hi _ ih =>
    obtain ⟨ho, hos⟩ := List.cons_subset.1 hsub
    exact .cons ((h.index_subscript hapart ho).trans hi) (ih hos)

end Elsewhere

section Steps

variable {ty part : Ty} {p : Portion ty part} {w : Leaf part → UInt32} {g : Leaf ty → UInt32}
  {m' : Memory}

theorem wrote_setVar (k : Leaf part)
    (h : (Home.variable name).Wrote ty m m' (p.upTo w g k.offset)) :
    (Home.variable name).Wrote ty m (m'.setVar name (Content.setScalar ⟨ty, p.upTo w g k.offset⟩ (p.leaf k) (w k)))
      (p.upTo w g (k.offset + 1)) := by
  constructor
  · show (if name = name then _ else _) = _
    rw [if_pos rfl, funext (p.upTo_succ w g k)]
    rfl
  · refine ⟨fun x hx => ?_, h.elsewhere.2⟩
    show (if x = name then _ else _) = _
    rw [if_neg hx, h.elsewhere.1 x hx]

theorem ofNat_add_inj {a b : Nat} (ha : a < 2 ^ 32) (hb : b < 2 ^ 32)
    (h : Int32.ofNat (offset + a) = Int32.ofNat (offset + b)) : a = b := by
  have hbits := congrArg (fun x : Int32 => x.toBitVec.toNat) h
  simp only [Int32.toBitVec_ofNat', BitVec.toNat_ofNat] at hbits
  omega

theorem wrote_setWord (hty : ty.isStruct = false) (k : Leaf part)
    (h : (Home.words offset).Wrote ty m m' (p.upTo w g k.offset)) :
    (Home.words offset).Wrote ty m (m'.setWord (Int32.ofNat (offset + (p.leaf k).offset)) (w k))
      (p.upTo w g (k.offset + 1)) := by
  have hsmall : ∀ l : Leaf ty, l.offset < 2 ^ 32 := fun l => by
    have hlt := l.offset_lt
    have hsize := (Ty.size_bounds hty).2
    omega
  constructor
  · intro l
    rw [Memory.words_setWord, p.upTo_succ]
    by_cases hl : l.offset = (p.leaf k).offset
    · rw [if_pos (by rw [hl]), if_pos hl]
    · rw [if_neg fun heq => hl (ofNat_add_inj (hsmall l) (hsmall _) heq), if_neg hl]
      exact h.holds l
  · refine ⟨h.elsewhere.1, fun a ha => ?_⟩
    rw [Memory.words_setWord, if_neg (ha _ (p.leaf k).offset_lt)]
    exact h.elsewhere.2 a ha

theorem Home.Wrote.start {home : Home} (h : home.Holds ty m g) :
    home.Wrote ty m m (p.upTo w g 0) := by
  rw [p.upTo_zero]
  refine ⟨h, ?_⟩
  cases home with
  | «variable» name => exact ⟨fun _ _ => rfl, rfl⟩
  | words offset => exact ⟨rfl, fun _ _ => rfl⟩

theorem exec_assign {x : String} {path : List Subscript} {f : Formula} {v old new : Content}
    {is : List Nat} (hf : m.formula f = some v) (hx : m.vars x = some old)
    (hpath : path.mapM m.index = some is) (hnew : old.assign? is v = some new) :
    (Action.assign x path f).exec m = some (m.setVar x new) := by
  simp only [Action.exec, hf, hx, hpath, hnew, bind, pure, bind_some]

theorem exec_store {f : Term} {k : Int32} {old w : UInt32} (ha : m.address a = some k)
    (hold : m.words k = some old) (hf : (m.term f).bind (Content.scalar? .i32) = some w) :
    (Action.store a f).exec m = some (m.setWord k w) := by
  obtain ⟨v, hv, hw⟩ := bind_eq_some_iff.1 hf
  simp only [Action.exec, ha, hold, hv, hw, bind, pure, bind_some]

end Steps

/-! ## 5. Stores -/

theorem term_componentTerm (hty : ty.isStruct = false) {w : Leaf ty → UInt32}
    (h : m.term v = some ⟨ty, w⟩) (l : Leaf ty) :
    m.term (componentTerm v ty l.offset) = some (.ofScalar (wordScalar ty) (w l)) := by
  cases l with
  | itself =>
    refine h.trans (congrArg (fun w => some (Content.mk _ w)) (funext fun l => ?_))
    cases l
    rfl
  | component i =>
    show (m.term v).bind (fun x => x.item? i) = _
    rw [h]
    exact Content.item?_vector w i
  | @entry r c i j =>
    have hmod : (i * c.toNat + j) % c.toNat = j := by rw [Nat.mul_add_mod_self_right, Nat.mod_eq_of_lt j.isLt]
    have hdiv : (i * c.toNat + j) / c.toNat = i := by
      rw [Nat.mul_comm, Nat.mul_add_div (by omega), Nat.div_eq_of_lt j.isLt, Nat.add_zero]
    show ((m.term v).bind fun x => x.item? ((i * c.toNat + j) % c.toNat)).bind
      (fun x => x.item? ((i * c.toNat + j) / c.toNat)) = _
    rw [h, hmod, hdiv]
    exact Content.item?_item?
  | first | later => cases hty

theorem term_encoded {a : Term} (h : m.term a = some (.ofScalar s w)) :
    (m.term (encoded a s)).bind (Content.scalar? .i32) = some w := by
  cases s with
  | i32 =>
    show (m.term a).bind _ = _
    rw [h]
    rfl
  | _ =>
    show ((m.term a).bind _).bind _ = _
    rw [h]
    rfl

section Stores

variable {ty part : Ty} {is : List Operand} {o : Operand} {ks : List Nat} {p : Portion ty part}
  {w : Leaf part → UInt32} {g : Leaf ty → UInt32} (his : Indexes t e m is ks) (hp : Selects ty ks p)
  (ho : m.term (valueTerm t e o) = some ⟨part, w⟩)
include his hp ho

theorem run_assignPart (hapart : (Home.variable name).Apart t e (o :: is))
    (h : (Home.variable name).Holds ty m g) :
    ∃ m', run (assignPart name ty (is.map (subscript t e)) (valueTerm t e o)) m = some m'
      ∧ (Home.variable name).Wrote ty m m' (p.overwrite w g) := by
  have hstart : (Home.variable name).Wrote ty m m (p.upTo w g 0) := .start h
  rw [← p.upTo_size]
  cases hp with
  | whole ty =>
    cases his
    have hrun : run (assignPart name ty [] (valueTerm t e o)) m = some (m.setVar name ⟨ty, w⟩) := by
      cases ty <;> exact (run_singleton _ m).trans (exec_assign ho h rfl (if_pos rfl))
    refine ⟨_, hrun, ?_, fun x hx => ?_, rfl⟩
    · have hall : (Portion.whole ty).overwrite w g = w := funext ((Portion.whole ty).overwrite_leaf w g)
      show (if name = name then _ else _) = _
      rw [if_pos rfl, Portion.upTo_size, hall]
    · exact if_neg hx
  | @component s n i =>
    cases his with
    | @cons a _ _ _ hi htail =>
      cases htail
      have hvalue : m.formula (.term (valueTerm t e o)) = some (.ofScalar s (w .itself)) :=
        ho.trans (congrArg (fun w => some (Content.mk _ w)) (words_itself w))
      have hpath : [subscript t e a].mapM m.index = some [i.val] := by simp [hi]
      refine ⟨_, (run_singleton _ m).trans (exec_assign hvalue hstart.holds hpath Content.assign?_component), ?_⟩
      exact wrote_setVar .itself hstart
  | @row r c i =>
    cases his with
    | @cons a _ _ _ hi htail =>
      cases htail
      refine run_range (I := fun k m' => (Home.variable name).Wrote _ m m' (Portion.upTo _ w g k))
        (fun k hk m' hm' => ?_) hstart
      -- operands are as before, since only the variable has changed
      have hvalue := (hm'.elsewhere.term_valueTerm hapart (List.mem_cons_self ..)).trans ho
      have hindex := (hm'.elsewhere.index_subscript hapart (List.mem_cons_of_mem _ (List.mem_cons_self ..))).trans hi
      have hitem : m'.formula (.term (.item (valueTerm t e o) (.number k)))
          = some (.ofScalar .f32 (w (.component ⟨k, hk⟩))) := by
        show (m'.term _).bind (fun x => x.item? k) = _
        rw [hvalue]
        exact Content.item?_vector w ⟨k, hk⟩
      have hnumber : m'.index (.number k) = some k := rfl
      have hpath : [Subscript.number k, subscript t e a].mapM m'.index = some [k, i.val] := by simp [hindex, hnumber]
      exact ⟨_, exec_assign hitem hm'.holds hpath (Content.assign?_entry i ⟨k, hk⟩),
        wrote_setVar (.component ⟨k, hk⟩) hm'⟩
  | @entry r c i j =>
    cases his with
    | @cons a _ _ _ hi htail =>
      cases htail with
      | @cons b _ _ _ hj htail =>
        cases htail
        have hvalue : m.formula (.term (valueTerm t e o)) = some (.ofScalar .f32 (w .itself)) :=
          ho.trans (congrArg (fun w => some (Content.mk _ w)) (words_itself w))
        have hpath : [subscript t e b, subscript t e a].mapM m.index = some [j.val, i.val] := by simp [hi, hj]
        refine ⟨_, (run_singleton _ m).trans (exec_assign hvalue hstart.holds hpath (Content.assign?_entry i j)), ?_⟩
        exact wrote_setVar .itself hstart

theorem run_storeWords (hty : ty.isStruct = false) (hpart : part.isStruct = false)
    (h : (Home.words offset).Holds ty m g) :
    ∃ m', run (storeWords (slotIndex t e offset ty is) part (valueTerm t e o)) m = some m'
      ∧ (Home.words offset).Wrote ty m m' (p.overwrite w g) := by
  rw [← p.upTo_size]
  refine run_range (I := fun k m' => (Home.words offset).Wrote ty m m' (p.upTo w g k))
    (fun k hk m' hm' => ?_) (.start h)
  obtain ⟨l, rfl⟩ := Leaf.exists_offset part k hk
  have hapart : (Home.words offset).Apart t e (o :: is) := trivial
  have hindexes := hm'.elsewhere.indexes hapart (List.subset_cons_self o is) his
  have haddress := address_slotIndex hindexes hp offset l.offset
  rw [← p.offset_leaf] at haddress
  have hvalue := (hm'.elsewhere.term_valueTerm hapart (List.mem_cons_self ..)).trans ho
  have hword := term_encoded (term_componentTerm hpart hvalue l)
  exact ⟨_, exec_store haddress (hm'.holds (p.leaf l)) hword, wrote_setWord hty l hm'⟩

end Stores

/-! ## 6. Either home -/

namespace Home

section

variable {ty part : Ty} {is : List Operand} {ks : List Nat} {p : Portion ty part}
  {g : Leaf ty → UInt32} {home : Home} (hty : ty.isStruct = false) (his : Indexes t e m is ks)
  (hp : Selects ty ks p) (h : home.Holds ty m g)
include hty his hp h

theorem run_store {w : Leaf part → UInt32} (ho : m.term (valueTerm t e o) = some ⟨part, w⟩)
    (hapart : home.Apart t e (o :: is)) :
    ∃ m', run (home.store t e ty part is o) m = some m' ∧ home.Wrote ty m m' (p.overwrite w g) := by
  cases home with
  | «variable» name => exact run_assignPart his hp ho hapart h
  | words offset => exact run_storeWords his hp ho hty (hp.isStruct hty) h

theorem formula_load : m.formula (home.load t e ty part is) = some ⟨part, g ∘ p.leaf⟩ := by
  cases home with
  | «variable» name => exact formula_readPart his hp h
  | words offset => exact formula_loadWords_slot his hp (hp.isStruct hty) h

end

end Home

/-! ## 7. Words that are touched -/

theorem addresses_valueTerm : (valueTerm t e o).addresses = [] := by
  cases o <;> rfl

theorem addresses_componentTerm : (componentTerm v ty k).addresses = v.addresses := by
  cases ty <;> rfl

theorem addresses_encoded {a : Term} : (encoded a s).addresses = a.addresses := by
  cases s <;> rfl

theorem addresses_decoded {a : Term} : (decoded a s).addresses = a.addresses := by
  cases s <;> rfl

theorem mem_addresses_composed {parts : List Term} (h : a ∈ (composed ty parts).addresses) :
    ∃ part ∈ parts, a ∈ part.addresses := by
  cases ty with
  | scalar s =>
    cases parts with
    | nil => cases h
    | cons part parts => exact ⟨part, List.mem_cons_self .., h⟩
  | vector s n => exact List.mem_flatMap.1 h
  | matrix r c =>
    obtain ⟨part, hpart, ha⟩ := List.mem_flatMap.1 h
    obtain ⟨j, -, hcolumn⟩ := List.mem_flatMap.1 hpart
    obtain ⟨i, -, hget⟩ := List.mem_filterMap.1 hcolumn
    exact ⟨part, List.mem_of_getElem? hget, ha⟩
  | struct ms => cases h

theorem mem_addresses_storeWords
    (h : a ∈ (storeWords x ty (valueTerm t e o)).flatMap Action.addresses) :
    ∃ k < ty.size, a = x.shift k := by
  obtain ⟨action, haction, ha⟩ := List.mem_flatMap.1 h
  obtain ⟨k, hk, rfl⟩ := List.mem_map.1 haction
  rw [Action.addresses, addresses_encoded, addresses_componentTerm, addresses_valueTerm] at ha
  exact ⟨k, List.mem_range.1 hk, List.mem_singleton.1 ha⟩

theorem mem_addresses_loadWords (h : a ∈ (loadWords x ty).addresses) :
    ∃ k < ty.size, a = x.shift k := by
  obtain ⟨part, hpart, ha⟩ := mem_addresses_composed h
  obtain ⟨k, hk, rfl⟩ := List.mem_map.1 hpart
  rw [addresses_decoded] at ha
  exact ⟨k, List.mem_range.1 hk, List.mem_singleton.1 ha⟩

theorem address_within {part : Ty} {p : Portion ty part} (his : Indexes t e m is ks)
    (hp : Selects ty ks p) (offset : Nat) (hk : k < part.size) :
    ∃ n < ty.size, m.address ((slotIndex t e offset ty is).shift k) = some (Int32.ofNat (offset + n)) := by
  have hwithin := p.within
  exact ⟨p.start + k, by omega, address_slotIndex his hp offset k⟩

end ArrayKernel.Shader
