import ArrayKernel.Proofs.Field.Parts
import ArrayKernel.Proofs.Shader.Indices

/-!
# Addresses of elements

A shader adds up the address of an element from the indices with their steps and the offset of the
part (`emitOp_globalPtr`). The sum stands for the word of the layout (`tracks_fieldIndex`).
-/

namespace ArrayKernel.Shader

open IR List

/-! ## 1. Pointers as sums -/

namespace LinearIndex

def shift (x : LinearIndex) (k : Nat) : LinearIndex := { x with offset := x.offset + Int64.ofNat k }

/-- The address of a pointer. Terms that only the device knows stand under the name of the pointer.
-/
def named (id : StmtId) (x : LinearIndex) : LinearIndex :=
  if x.terms.isEmpty then x else { x with terms := [(valueName id, 1)] }

/-- The lines that a pointer needs: one that names its terms, if there are any. -/
def declaration (id : StmtId) (x : LinearIndex) : List String :=
  x.address.dynamic?.toList.map fun terms => let name := valueName id; s!"let {name}: i32 = {terms};"

def Declared (m : Int) (env : String → Int) (id : StmtId) (x : LinearIndex) : Prop :=
  x.terms.isEmpty = false → env (valueName id) ≡ (x.terms.map fun y => env y.1 * y.2.toInt).sum [ZMOD m]

theorem word_shift (x : LinearIndex) (k : Nat) : x.address.word k = (x.shift k).address.word 0 := by
  have hoffset : x.offset + Int64.ofNat k + Int64.ofNat 0 = x.offset + Int64.ofNat k := Int64.add_zero _
  simp only [Address.word, address, shift, hoffset]
  rfl

theorem Declared.value_named {m : Int} {env : String → Int} {id : StmtId} {x : LinearIndex}
    (h : x.Declared m env id) {k : Nat} :
    ((x.named id).shift k).value env ≡ (x.shift k).value env [ZMOD m] := by
  unfold named
  cases hx : x.terms.isEmpty with
  | true => exact .rfl
  | false =>
    have hname : env (valueName id) * (1 : Int64).toInt = env (valueName id) := mul_one _
    simp only [Bool.false_eq_true, if_false, shift, value, map_cons, map_nil, sum_cons,
      sum_nil, hname, add_zero]
    exact (h hx).add_right _

end LinearIndex

theorem Address.add_operand {a : Address} {o : Operand} {scale : Int64} {t : Target} {e : Emitter} :
    a.add o scale (operand o t e).1 = a.add o scale (indexText o t e).1 := by
  match o with
  | .stmt _ | .const (.f32 _) | .const (.i32 _) | .const (.u32 _) => rfl

end ArrayKernel.Shader

namespace ArrayKernel.Field

open IR Shader

variable {env : String → Int} {o : Operand} {is : List Operand} {t : Target} {e : Emitter}
  {f : FieldInfo} {z : Int}

/-! ## 2. Sums modulo a number -/

/-- The sum has an exact value modulo `m`. If numbers are exact, then its constant is no more than
the whole. -/
structure Tracks (m : Int) (env : String → Int) (x : LinearIndex) (w : Nat) : Prop where
  value : x.value env ≡ w [ZMOD m]
  constant : m = 0 → 0 ≤ x.offset.toInt ∧ x.offset.toInt ≤ w

namespace Tracks

variable {m : Int} {env : String → Int} {x : LinearIndex} {w bound n v : Nat} {t : Target}
  {e : Emitter}

theorem zero : Tracks m env {} 0 := ⟨Int.ModEq.rfl, fun _ => ⟨le_refl _, le_refl _⟩⟩

theorem addConst (h : Tracks m env x w) (hz : z ≡ v [ZMOD m]) (hm : Keeps m 64 (w + v * n)) :
    Tracks m env { x with offset := x.offset + Int64.ofInt z * Int64.ofNat n } (w + v * n) := by
  have hsum : (x.offset + Int64.ofInt z * Int64.ofNat n).toInt = (x.offset.toInt + z * n).bmod (2 ^ 64) := by
    rw [← Int64.ofInt_eq_ofNat, ← Int64.ofInt_mul, ← Int64.ofInt_toInt x.offset, ← Int64.ofInt_add,
      Int64.toInt_ofInt, Int64.ofInt_toInt]
    rfl
  rcases hm with hm | ⟨rfl, hlt⟩
  · refine ⟨?_, fun h0 => by simp [h0] at hm⟩
    have hvalue := (bmod_modEq hm (by decide : 32 ≤ 64) (x.offset.toInt + z * n)).add_left
      (x.terms.map fun y => env y.1 * y.2.toInt).sum
    rw [← hsum, ← Int.add_assoc] at hvalue
    refine hvalue.trans ?_
    exact h.value.add (hz.mul_right _)
  · -- exact numbers: the constant is at most the whole sum, which has room in 64 bits
    obtain ⟨hlow, hhigh⟩ := h.constant rfl
    have hvalue := Int.modEq_zero_iff.1 h.value
    obtain rfl := Int.modEq_zero_iff.1 hz
    rw [Int.bmod_eq_of_le (by omega) (by omega)] at hsum
    refine ⟨Int.modEq_zero_iff.2 ?_, fun _ => ?_⟩
    · show (x.terms.map fun y => env y.1 * y.2.toInt).sum + _ = _
      unfold LinearIndex.value at hvalue
      rw [hsum]
      omega
    · show 0 ≤ Int64.toInt _ ∧ Int64.toInt _ ≤ _
      rw [hsum]
      omega

theorem addTerm (h : Tracks m env x w) {name : String} (hv : env name ≡ v [ZMOD m])
    (hm : Keeps m 64 n) :
    Tracks m env { x with terms := x.terms ++ [(name, Int64.ofNat n)] } (w + v * n) := by
  have hstep : env name * (Int64.ofNat n).toInt ≡ v * n [ZMOD m] := by
    refine hv.mul ?_
    rw [Int64.toInt_ofNat']
    exact hm.bmod_modEq (by decide : 32 ≤ 64) (le_refl n) Int.ModEq.rfl
  constructor
  · have hvalue := h.value.add hstep
    refine .trans (congrArg (· % m) ?_) hvalue
    simp only [LinearIndex.value, List.map_append, List.map_cons, List.map_nil, List.sum_append,
      List.sum_cons, List.sum_nil]
    omega
  · intro h0
    obtain ⟨hlow, hhigh⟩ := h.constant h0
    exact ⟨hlow, hhigh.trans (Int.ofNat_le.2 (Nat.le_add_right w _))⟩

theorem add (h : Tracks m env x w) (hv : operandValue env t e o ≡ v [ZMOD m]) (hn : Keeps m 64 n)
    (hm : Keeps m 64 (w + v * n)) :
    Tracks m env (x.add o (Int64.ofNat n) (indexText o t e).1) (w + v * n) := by
  unfold operandValue at hv
  unfold LinearIndex.add
  cases hc : o.const?.bind Literal.toInt? with
  | some z =>
    rw [hc] at hv
    exact h.addConst hv hm
  | none =>
    rw [hc] at hv
    exact h.addTerm hv hn

theorem shift (h : Tracks m env x w) {k : Nat} (hm : Keeps m 64 (w + k)) :
    Tracks m env (x.shift k) (w + k) := by
  rw [← one_mul k] at hm
  have hone := h.addConst Int.ModEq.rfl hm
  rw [one_mul] at hone
  have hmul : Int64.ofInt (1 : Nat) * Int64.ofNat k = Int64.ofNat k := Int64.one_mul _
  rwa [hmul] at hone

theorem addAll (hm : Keeps m 64 bound) {ks ns : List Nat} {size : Nat}
    (his : List.Forall₂ (fun o k => operandValue env t e o = ((k : Nat) : Int)) is ks)
    (hks : List.Forall₂ (· < ·) ks ns) (h : Tracks m env x w)
    (hbound : w + ns.prod * size ≤ bound) :
    Tracks m env (x.addAll t e (is.zip (FieldInfo.stepsOf size ns))) (w + position ns ks * size) := by
  induction hks generalizing is x w with
  | nil =>
    cases his
    simpa [position, LinearIndex.addAll] using h
  | @cons k n ks ns hk hks ih =>
    cases his with
    | @cons i _ is _ hi his =>
      have hrow : (k + 1) * (ns.prod * size) ≤ n * (ns.prod * size) := Nat.mul_le_mul_right _ hk
      rw [Nat.succ_mul] at hrow
      rw [List.prod_cons, mul_assoc] at hbound
      have hvalue : operandValue env t e i ≡ k [ZMOD m] := congrArg (· % m) hi
      have hfirst := h.add hvalue (hm.mono (by omega : ns.prod * size ≤ bound)) (hm.mono (by omega))
      have hall := ih his hfirst (by omega)
      rw [position, add_mul, mul_assoc, ← add_assoc]
      exact hall

end Tracks

/-! ## 3. Addresses of fields -/

def namedValues (env : String → Int) (t : Target) (e : Emitter) (id : StmtId) : Int :=
  env (operand (.stmt id) t e).1

theorem operandValue_eq (h : intValue (namedValues env t e) o = some z) :
    operandValue env t e o = z := by
  match o, h with
  | .stmt id, rfl | .const (.i32 v), rfl => rfl

/-- The address of a part of an element: the indices with their steps, and the offset of the part.
-/
def fieldIndex (t : Target) (e : Emitter) (f : FieldInfo) (is : List Operand) (o : Operand) :
    LinearIndex :=
  (LinearIndex.addAll t e {} (is.zip (FieldInfo.stepsOf f.elem.size f.extents))).add o
    (Int64.ofNat 1) (indexText o t e).1

theorem tracks_fieldIndex {m : Int} {start : Nat} (hm : Keeps m 64 f.storage) (i : f.Index)
    (his : List.Forall₂ (fun o k => intValue (namedValues env t e) o = some ((k : Nat) : Int)) is i.coords)
    (ho : Stands m (namedValues env t e) True o start) (hstart : start ≤ f.elem.size) :
    Tracks m env (fieldIndex t e f is o) (position f.extents i.coords * f.elem.size + start) := by
  have hrow : (position f.extents i.coords + 1) * f.elem.size ≤ f.storage :=
    Nat.mul_le_mul_right _ (position_lt i.within)
  rw [Nat.succ_mul] at hrow
  obtain ⟨z, hz, hmod⟩ := ho
  have hindices : Tracks m env (LinearIndex.addAll t e {} (is.zip (FieldInfo.stepsOf f.elem.size f.extents)))
      (0 + position f.extents i.coords * f.elem.size) :=
    Tracks.zero.addAll hm (his.imp fun _ _ h => operandValue_eq h) i.within (Nat.zero_add _).le
  rw [Nat.zero_add] at hindices
  have hone : Keeps m 64 1 := hm.imp_right fun h => ⟨h.1, by decide⟩
  have hvalue : operandValue env t e o ≡ start [ZMOD m] := operandValue_eq hz ▸ hmod trivial
  have hall := hindices.add hvalue hone (hm.mono (by omega))
  rwa [Nat.mul_one] at hall

/-! ## 4. What is written for a pointer -/

theorem foldl_fieldIndex (t : Target) (e : Emitter) (f : FieldInfo) (is : List Operand)
    (o : Operand) :
    (((is.zip f.strides).map fun y => (y.1, y.2.toInt64 * Int64.ofNat f.elem.size, (operand y.1 t e).1)).foldl
      (fun a y => a.add y.1 y.2.1 y.2.2) (Address.const 0)).add o 1 (operand o t e).1
        = (fieldIndex t e f is o).address := by
  have hzip : (is.zip f.strides).map (fun y => (y.1, y.2.toInt64 * Int64.ofNat f.elem.size))
      = (is.zip (FieldInfo.stepsOf f.elem.size f.extents)).map fun y => (y.1, Int64.ofNat y.2) := by
    have hmap := congrArg is.zip (FieldInfo.map_stridesOf f.elem.size f.shape)
    rw [List.zip_map_right, List.zip_map_right] at hmap
    exact hmap
  have hindices := foldl_address (t := t) (e := e) (is.zip (FieldInfo.stepsOf f.elem.size f.extents)) {}
  rw [List.foldl_map] at hindices ⊢
  have hsum := congrArg (List.foldl (fun a y => a.add y.1 y.2 (indexText y.1 t e).1) (Address.const 0)) hzip
  rw [List.foldl_map, List.foldl_map] at hsum
  simp only [Address.add_operand]
  rw [fieldIndex, LinearIndex.address_add, ← hindices]
  exact congrArg (fun a => a.add o 1 (indexText o t e).1) hsum

theorem emitOp_globalPtr (hf : t.kernel.field? f.id = some f) (e : Emitter) (id : StmtId)
    (is : List Operand) (o : Operand) : emitOp id (.globalPtr f.id is o) t e = ((), { e with
      lines := e.lines ++ (((fieldIndex t e f is o).declaration id).map (indentation e.depth ++ ·)).toArray
      ptrs := e.ptrs.insert id (f.id, ((fieldIndex t e f is o).named id).address) }) := by
  have hoperand : ∀ x : Operand × UInt64, ((do return (x.1, x.2.toInt64 * Int64.ofNat f.elem.size, ← operand x.1) :
      Emit (Operand × Int64 × String)) t e).2 = e := fun x => operand_state t e x.1
  have hsum := foldl_fieldIndex t e f is o
  show fieldAddress id f.id is o t e = _
  unfold fieldAddress
  simp only [run_bind, run_read, hf, operand_state, mapM_state t e hoperand, mapM_results hoperand]
  have hpure : ∀ a : Operand × Int64 × String, (pure a : Emit (Operand × Int64 × String)) t e = (a, e) := fun _ => rfl
  simp only [hpure, hsum]
  generalize fieldIndex t e f is o = x
  cases hx : x.terms.isEmpty with
  | true =>
    have hnone : x.address.dynamic? = none := if_pos (by rw [LinearIndex.address, List.isEmpty_map]; exact hx)
    simp only [hnone, LinearIndex.declaration, LinearIndex.named, hx]
    rfl
  | false =>
    have hsome : x.address.dynamic? = some (" + ".intercalate x.address.terms) :=
      if_neg (by rw [LinearIndex.address, List.isEmpty_map, hx]; exact Bool.false_ne_true)
    simp only [hsome, LinearIndex.declaration, LinearIndex.named, hx]
    rfl

end ArrayKernel.Field
