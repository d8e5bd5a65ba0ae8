import ArrayKernel.Proofs.Arguments
import Mathlib.Algebra.Order.BigOperators.Group.List
import Mathlib.Algebra.Order.Ring.Int
import Mathlib.Data.List.Perm.Subperm

/-!
# Words that shaders address

All indices that a shader writes into the buffers of a launch are within the words of the kernel
(`indicesFit_lower`). The index of a shared slot is a sum of where the slot starts and the indices
with their strides.
-/

namespace ArrayKernel.IR

open List Stmt

variable {k : Kernel}

/-! ## 1. One definition for each id -/

theorem Task.defs_subperm (t : Task) : (t.defs.map Prod.fst).Subperm t.ids := by
  have hid : ∀ ss : List Stmt, ((ss.filterMap Stmt.def?).map Prod.fst).Sublist (ss.map Stmt.id) := by
    intro ss
    induction ss with
    | nil => exact Sublist.refl _
    | cons s ss ih =>
      cases s with
      | op i o | rangeFor i first last body hint => exact ih.cons_cons _
      | while_ i condBody cond body | ifElse i cond yes no => exact ih.cons _
  obtain ⟨loop, body⟩ := t
  cases loop with
  | none => exact (hid _).subperm
  | some l =>
    -- the index comes first among the definitions, and between the bounds and the body among the
    -- ids
    have hsplit : (Task.defs ⟨some l, body⟩).map Prod.fst = l.index :: (((flattenAll l.prologue).filterMap def?).map
        Prod.fst ++ ((flattenAll body).filterMap def?).map Prod.fst) := by
      simp [Task.defs, Task.statements]
    rw [hsplit]
    refine perm_middle.symm.subperm.trans (Sublist.subperm ?_)
    show Sublist _ (idsOf l.prologue ++ [l.index] ++ idsOf body)
    rw [append_assoc]
    exact (hid _).append ((hid _).cons_cons _)

theorem Kernel.nodup_defs (h : (k.tasks.flatMap Task.ids).Nodup) : (k.defs.map Prod.fst).Nodup := by
  rw [nodup_flatMap] at h
  rw [Kernel.defs, map_flatMap, nodup_flatMap]
  refine ⟨fun t ht => ?_, h.2.imp ?_⟩
  · obtain ⟨ids, hperm, hsub⟩ := t.defs_subperm
    exact hperm.nodup_iff.1 ((h.1 t ht).sublist hsub)
  · exact fun {t u} hdisj i hi hi' => hdisj (t.defs_subperm.subset hi) (u.defs_subperm.subset hi')

theorem Kernel.def_eq (h : (k.tasks.flatMap Task.ids).Nodup) {i : StmtId} {x y : Def}
    (hx : (i, x) ∈ k.defs) (hy : (i, y) ∈ k.defs) : x = y :=
  (Prod.mk.inj (inj_on_of_nodup_map (k.nodup_defs h) hx hy rfl)).2

end ArrayKernel.IR

namespace ArrayKernel.Shader

open IR List

variable {n offset : Nat} {o : Operand} {v : Int} {ty : Ty}

/-! ## 2. Sums of indices -/

/-- A sum of names with factors and of a constant. -/
structure LinearIndex where
  terms : List (String × Int64) := []
  offset : Int64 := 0

namespace LinearIndex

def termText (x : String × Int64) : String := if x.2 = 1 then x.1 else s!"{x.1} * {x.2.toInt}"

def address (x : LinearIndex) : Address := { terms := x.terms.map termText, offset := x.offset }

def value (env : String → Int) (x : LinearIndex) : Int :=
  (x.terms.map fun y => env y.1 * y.2.toInt).sum + x.offset.toInt

def add (x : LinearIndex) (o : Operand) (scale : Int64) (text : String) : LinearIndex :=
  match o.const?.bind Literal.toInt? with
  | some v => { x with offset := x.offset + Int64.ofInt v * scale }
  | none => { x with terms := x.terms ++ [(text, scale)] }

theorem address_add {x : LinearIndex} {scale : Int64} {text : String} :
    (x.add o scale text).address = x.address.add o scale text := by
  unfold add Address.add
  cases o.const?.bind Literal.toInt? with
  | some v => rfl
  | none =>
    simp only [address, map_append]
    rfl

end LinearIndex

def operandValue (env : String → Int) (t : Target) (e : Emitter) (o : Operand) : Int :=
  (o.const?.bind Literal.toInt?).getD (env (indexText o t e).1)

theorem toInt_add_mul {a : Int64} (ha : 0 ≤ a.toInt) (hv : 0 ≤ v) (hn : 0 < n) (hn' : n < 2 ^ 63)
    (hsum : a.toInt + v * n < 2 ^ 63) :
    (a + Int64.ofInt v * Int64.ofNat n).toInt = a.toInt + v * n := by
  have hle : v ≤ v * n := le_mul_of_one_le_right hv (by omega)
  rw [Int64.toInt_add, Int64.toInt_mul, Int64.toInt_ofInt_of_le (by omega) (by omega), Int64.toInt_ofNat_of_lt hn']
  rw [Int.bmod_eq_of_le (n := v * n) (by omega) (by omega), Int.bmod_eq_of_le (by omega) (by omega)]

theorem bmod_le {x : Int} (h : -2 ^ 63 ≤ x) : x.bmod (2 ^ 64) ≤ x := by
  rw [Int.bmod_def]
  split <;> omega

theorem toInt_add_mul_le (a : Int64) (hv : 0 ≤ v) (hn : 0 < n) (hn' : n < 2 ^ 63)
    (hvn : v * n < 2 ^ 63) : (a + Int64.ofInt v * Int64.ofNat n).toInt ≤ a.toInt + v * n := by
  have hle : v ≤ v * n := le_mul_of_one_le_right hv (by omega)
  have ha := a.le_toInt
  rw [Int64.toInt_add, Int64.toInt_mul, Int64.toInt_ofInt_of_le (by omega) (by omega), Int64.toInt_ofNat_of_lt hn']
  rw [Int.bmod_eq_of_le (n := v * n) (by omega) (by omega)]
  exact bmod_le (by omega)

namespace LinearIndex

variable {x : LinearIndex} {env : String → Int} {t : Target} {e : Emitter} {o : Operand} {n : Nat}
  {ys : List (Operand × Nat)}

theorem value_dynamic (hc : o.const?.bind Literal.toInt? = none) (hn' : n < 2 ^ 63) :
    (x.add o (Int64.ofNat n) (indexText o t e).1).value env = x.value env + env (indexText o t e).1 * n := by
  simp only [add, hc, value, map_append, map_cons, map_nil, sum_append, sum_cons, sum_nil,
    Int64.toInt_ofNat_of_lt hn']
  omega

theorem value_add_le (hv : 0 ≤ operandValue env t e o) (hn : 0 < n) (hn' : n < 2 ^ 63)
    (hvn : operandValue env t e o * n < 2 ^ 63) :
    (x.add o (Int64.ofNat n) (indexText o t e).1).value env ≤ x.value env + operandValue env t e o * n := by
  unfold operandValue at hv hvn ⊢
  cases hc : o.const?.bind Literal.toInt? with
  | some v =>
    rw [hc, Option.getD_some] at hv hvn
    have hle := toInt_add_mul_le x.offset hv hn hn' hvn
    simp only [add, hc, value, Option.getD_some]
    omega
  | none => exact (value_dynamic hc hn').le

/-- It gives the exact sum as long as the constant stays within 64 bits. -/
theorem value_add (hx : 0 ≤ x.offset.toInt) (hv : 0 ≤ operandValue env t e o) (hn : 0 < n)
    (hn' : n < 2 ^ 63) (hsum : x.offset.toInt + operandValue env t e o * n < 2 ^ 63) :
    let y := x.add o (.ofNat n) (indexText o t e).1
    y.value env = x.value env + operandValue env t e o * n
      ∧ 0 ≤ y.offset.toInt ∧ y.offset.toInt ≤ x.offset.toInt + operandValue env t e o * n := by
  have hnonneg : 0 ≤ operandValue env t e o * n := mul_nonneg hv (Int.natCast_nonneg n)
  unfold operandValue at hv hsum hnonneg ⊢
  cases hc : o.const?.bind Literal.toInt? with
  | some v =>
    rw [hc, Option.getD_some] at hv hsum hnonneg
    have heq := toInt_add_mul hx hv hn hn' hsum
    simp only [add, hc, value, Option.getD_some]
    omega
  | none =>
    rw [hc, Option.getD_none] at hnonneg
    have hoffset : (x.add o (.ofNat n) (indexText o t e).1).offset = x.offset := by simp only [add, hc]
    refine ⟨value_dynamic hc hn', ?_, ?_⟩
    · rw [hoffset]
      exact hx
    · rw [hoffset, Option.getD_none]
      omega

def addAll (t : Target) (e : Emitter) (x : LinearIndex) (ys : List (Operand × Nat)) : LinearIndex :=
  ys.foldl (fun x y => x.add y.1 (Int64.ofNat y.2) (indexText y.1 t e).1) x

def total (env : String → Int) (t : Target) (e : Emitter) (ys : List (Operand × Nat)) : Int :=
  (ys.map fun y => operandValue env t e y.1 * y.2).sum

def Ascending (env : String → Int) (t : Target) (e : Emitter) (ys : List (Operand × Nat)) : Prop :=
  ∀ y ∈ ys, 0 ≤ operandValue env t e y.1 ∧ 0 < y.2 ∧ y.2 < 2 ^ 63

theorem total_cons {y : Operand × Nat} :
    total env t e (y :: ys) = operandValue env t e y.1 * y.2 + total env t e ys := by
  rw [total, map_cons, sum_cons, total]

theorem Ascending.total_nonneg (h : Ascending env t e ys) : 0 ≤ total env t e ys := by
  refine sum_nonneg fun v hv => ?_
  obtain ⟨y, hy, rfl⟩ := mem_map.1 hv
  exact mul_nonneg (h y hy).1 (Int.natCast_nonneg _)

theorem value_addAll_le (h : Ascending env t e ys) (htotal : total env t e ys < 2 ^ 63) :
    (addAll t e x ys).value env ≤ x.value env + total env t e ys := by
  induction ys generalizing x with
  | nil => exact (add_zero _).ge
  | cons y ys ih =>
    obtain ⟨⟨hv, hn, hn'⟩, hys⟩ := forall_mem_cons.1 h
    rw [total_cons] at htotal ⊢
    have hrest : 0 ≤ total env t e ys := Ascending.total_nonneg hys
    have hfirst : 0 ≤ operandValue env t e y.1 * y.2 := mul_nonneg hv (Int.natCast_nonneg _)
    have hle := value_add_le (x := x) hv hn hn' (by omega)
    have hle' := ih (x := x.add y.1 (.ofNat y.2) (indexText y.1 t e).1) hys (by omega)
    show (addAll t e (x.add y.1 (Int64.ofNat y.2) (indexText y.1 t e).1) ys).value env ≤ _
    omega

theorem value_addAll (h : Ascending env t e ys) (hx : 0 ≤ x.offset.toInt)
    (htotal : x.offset.toInt + total env t e ys < 2 ^ 63) :
    (addAll t e x ys).value env = x.value env + total env t e ys := by
  induction ys generalizing x with
  | nil => exact (add_zero _).symm
  | cons y ys ih =>
    obtain ⟨⟨hv, hn, hn'⟩, hys⟩ := forall_mem_cons.1 h
    rw [total_cons] at htotal ⊢
    have hrest : 0 ≤ total env t e ys := Ascending.total_nonneg hys
    obtain ⟨hvalue, hlow, hhigh⟩ := value_add hx hv hn hn' (by omega)
    have hvalue' := ih hys hlow (by omega)
    show (addAll t e (x.add y.1 (Int64.ofNat y.2) (indexText y.1 t e).1) ys).value env = _
    omega

end LinearIndex

/-! ## 3. Components of shared slots -/

def InRange : Ty → List Int → Prop
  | _, [] => True
  | .vector _ n, [i] => 0 ≤ i ∧ i < n.toNat
  | .matrix r _, [i] => 0 ≤ i ∧ i < r.toNat
  | .matrix r c, [i, j] => (0 ≤ i ∧ i < r.toNat) ∧ 0 ≤ j ∧ j < c.toNat
  | _, _ => False

def firstStride : Ty → Nat
  | .matrix _ c => c.toNat
  | _ => 1

def slotTerms (ty : Ty) (is : List Operand) : List (Operand × Nat) :=
  is.zip (firstStride ty :: replicate (is.length - 1) 1)

/-- The index of a part of a shared slot, from the word at which the slot starts. -/
def slotIndex (t : Target) (e : Emitter) (offset : Nat) (ty : Ty) (is : List Operand) :
    LinearIndex :=
  .addAll t e { offset := Int64.ofNat offset } (slotTerms ty is)

section Texts

variable {α β : Type} {t : Target} {e : Emitter}

theorem mapM_results {f : α → Emit β} (hf : ∀ x, (f x t e).2 = e) {xs : List α} :
    ((xs.mapM f) t e).1 = xs.map fun x => (f x t e).1 := by
  induction xs with
  | nil => rfl
  | cons x xs ih =>
    rw [mapM_cons]
    simp only [run_bind, hf x]
    show (f x t e).1 :: ((xs.mapM f) t e).1 = _
    rw [ih, map_cons]

theorem zip_strides {text : Operand → String} {is : List Operand} {ns : List Nat} :
    is.zip ((ns.map Int64.ofNat).zip (is.map text)) = (is.zip ns).map fun y => (y.1, Int64.ofNat y.2, text y.1) := by
  induction is generalizing ns with
  | nil => rfl
  | cons i is ih =>
    cases ns with
    | nil => rfl
    | cons n ns =>
      rw [map_cons, map_cons, zip_cons_cons, zip_cons_cons, ih, zip_cons_cons, map_cons]

theorem foldl_address (ys : List (Operand × Nat)) (x : LinearIndex) :
    (ys.map fun y => (y.1, Int64.ofNat y.2, (indexText y.1 t e).1)).foldl
      (fun a (i, scale, text) => a.add i scale text) x.address = (x.addAll t e ys).address := by
  induction ys generalizing x with
  | nil => rfl
  | cons y ys ih =>
    rw [map_cons, foldl_cons]
    dsimp only
    rw [← LinearIndex.address_add, ih]
    rfl

theorem localAccess_slotIndex {slot : StmtId} (h : e.slots[slot]? = some (.shared offset ty))
    (is : List Operand) :
    localAccess slot is t e = (.words (slotIndex t e offset ty is).address, e) := by
  have hscales : (.ofNat (firstStride ty) :: replicate (is.length - 1) 1)
      = (firstStride ty :: replicate (is.length - 1) 1).map Int64.ofNat := by
    rw [map_cons, map_replicate]
    rfl
  simp only [localAccess, run_bind, mapM_state t e (indexText_state t e) is,
    mapM_results (indexText_state t e), run_get, h]
  show (LocalAccess.words ((is.zip ((Int64.ofNat (firstStride ty) :: replicate (is.length - 1) 1).zip
    (is.map fun i => (indexText i t e).1))).foldl _ (.const (.ofNat offset))), e) = _
  rw [hscales, zip_strides]
  exact congrArg (fun a => (LocalAccess.words a, e)) (foldl_address _ { offset := Int64.ofNat offset })

end Texts

theorem row_within {i : Int} {rows : Nat} (hi : 0 ≤ i) (hi' : i < rows) (cols : Nat) :
    0 ≤ i * cols ∧ i * cols + cols ≤ rows * cols := by
  have h := Int.mul_le_mul_of_nonneg_right (Int.add_one_le_of_lt hi') (Int.natCast_nonneg cols)
  rw [Int.add_mul, Int.one_mul] at h
  exact ⟨mul_nonneg hi (Int.natCast_nonneg cols), h⟩

section Within

variable {t : Target} {e : Emitter} {ty part : Ty} {is : List Operand} {env : String → Int}

theorem InRange.total (hpart : ty.select is.length = some part)
    (hr : InRange ty (is.map (operandValue env t e))) :
    LinearIndex.Ascending env t e (slotTerms ty is) ∧ LinearIndex.total env t e (slotTerms ty is) < 2 ^ 63
      ∧ LinearIndex.total env t e (slotTerms ty is) + part.size ≤ ty.size := by
  have hdim : ∀ d : Dim, 0 < d.toNat ∧ d.toNat < 2 ^ 63 := fun d => by cases d <;> decide
  rcases is with _ | ⟨i, _ | ⟨j, _ | ⟨l, is⟩⟩⟩
  · cases hpart
    exact ⟨forall_mem_nil _, (by decide : (0 : Int) < 2 ^ 63), (zero_add _).le⟩
  · cases ty with
    | scalar s | struct ms => cases hpart
    | vector s n =>
      cases hpart
      obtain ⟨hi, hi'⟩ := hr
      have hn := hdim n
      have htotal : LinearIndex.total env t e (slotTerms (.vector s n) [i]) = operandValue env t e
        i * (1 : Nat) := add_zero _
      rw [htotal, Ty.size, Ty.size]
      exact ⟨forall_mem_singleton.2 ⟨hi, (by decide : 0 < 1), (by decide : 1 < 2 ^ 63)⟩, by omega, by omega⟩
    | matrix r c =>
      cases hpart
      obtain ⟨hi, hi'⟩ := hr
      have hrow := row_within hi hi' c.toNat
      have hrc : (r.toNat : Int) * c.toNat < 2 ^ 63 := by cases r <;> cases c <;> decide
      have htotal : LinearIndex.total env t e (slotTerms (.matrix r c) [i]) = operandValue env t e
        i * c.toNat := add_zero _
      rw [htotal, Ty.size, Ty.size, Int.natCast_mul]
      exact ⟨forall_mem_singleton.2 ⟨hi, hdim c⟩, by omega, by omega⟩
  · cases ty with
    | scalar s | struct ms | vector s n => cases hpart
    | matrix r c =>
      cases hpart
      obtain ⟨⟨hi, hi'⟩, hj, hj'⟩ := hr
      have hrow := row_within hi hi' c.toNat
      have hrc : (r.toNat : Int) * c.toNat < 2 ^ 63 := by cases r <;> cases c <;> decide
      have htotal : LinearIndex.total env t e (slotTerms (.matrix r c) [i, j])
          = operandValue env t e i * c.toNat + operandValue env t e j := by
        show operandValue env t e i * c.toNat + (operandValue env t e j * (1 : Int) + 0) = _
        omega
      rw [htotal, Ty.size, Ty.size, Int.natCast_mul]
      refine ⟨forall_mem_cons.2 ⟨⟨hi, hdim c⟩, forall_mem_singleton.2 ⟨hj, ?_⟩⟩, by omega, by omega⟩
      exact ⟨(by decide : 0 < 1), (by decide : 1 < 2 ^ 63)⟩
  · cases ty <;> cases hpart

theorem slotIndex_le (offset : Nat) (hpart : ty.select is.length = some part)
    (hr : InRange ty (is.map (operandValue env t e))) :
    (slotIndex t e offset ty is).value env + part.size ≤ offset + ty.size := by
  obtain ⟨hasc, hfew, htotal⟩ := hr.total hpart
  have hstart : (Int64.ofNat offset).toInt ≤ offset := by
    rw [Int64.toInt_ofNat']
    exact bmod_le (by omega)
  have hvalue : (slotIndex t e offset ty is).value env ≤ 0 + (Int64.ofNat offset).toInt + _ :=
    LinearIndex.value_addAll_le hasc hfew
  omega

theorem le_slotIndex (hpart : ty.select is.length = some part) (hroom : offset + ty.size < 2 ^ 63)
    (hr : InRange ty (is.map (operandValue env t e))) :
    (offset : Int) ≤ (slotIndex t e offset ty is).value env := by
  obtain ⟨hasc, -, htotal⟩ := hr.total hpart
  have hstart : (Int64.ofNat offset).toInt = offset := Int64.toInt_ofNat_of_lt (by omega)
  have hnonneg := hasc.total_nonneg
  have hvalue : (slotIndex t e offset ty is).value env = 0 + (Int64.ofNat offset).toInt + _ :=
    LinearIndex.value_addAll hasc (by simp only [hstart]; omega) (by simp only [hstart]; omega)
  omega

end Within

/-! ## 4. What is written for words -/

section Written

variable {t : Target} {e : Emitter} {s id : StmtId} {is : List Operand}

theorem lines_forM {texts : List String} :
    ((texts.forM line) t e).2.lines.toList = e.lines.toList ++ texts.map (indentation e.depth ++ ·) := by
  induction texts generalizing e with
  | nil => exact (append_nil _).symm
  | cons x xs ih =>
    show ((xs.forM line) t (line x t e).2).2.lines.toList = _
    rw [ih, lines_line, append_assoc]
    rfl

def resultText (value : String) (ty : Ty) (c : Nat) : String :=
  s!"rets[{c}] = {encode (componentOf value ty c) (wordScalar ty)};"

theorem word_const {c : Nat} (hc : c < 2 ^ 63) : (Address.const 0).word c = toString c := by
  show toString ((0 : Int64) + Int64.ofNat c).toInt = _
  rw [Int64.zero_add, Int64.toInt_ofNat_of_lt hc]
  rfl

theorem operand_resource {kind : ResourceKind} :
    (operand o t (resource kind t e).2).1 = (operand o t e).1 := by
  rcases resource_cases with ⟨b, -, -, heq⟩ | ⟨-, heq⟩
  · rw [heq]
  · rw [heq]
    cases o <;> rfl

theorem lines_ret (hb : Bound t e) {value : Operand} (hty : ty.size < 2 ^ 63) :
    (emitStmt (.op id (.ret value ty)) t e).2.lines.toList = e.lines.toList
      ++ (range ty.size).map fun c => indentation e.depth ++ resultText (operand value t e).1 ty c := by
  have hname : (resource .rets t e).1 = "rets" := resource_name hb .rets
  have hwords : ∀ value : String, writeWords ty value (wordAt "rets" (.const 0) false)
      = (range ty.size).map (resultText value ty) := by
    intro value
    refine map_congr_left fun c hc => ?_
    have hlt : c < 2 ^ 63 := (mem_range.1 hc).trans hty
    simp only [wordAt, word_const hlt, Word.store, resultText, ToString.toString, String.append_assoc]
    rfl
  rw [emitStmt]
  simp only [emitOp, run_bind, hname, operand_state, operand_resource, lines_forM, hwords, map_map]
  rw [(resource_lines t e .rets).1, (resource_lines t e .rets).2]
  rfl

/-- The part of a slot that a statement goes to: the slot, the indices, and the number of words. -/
def slotPart? (t : Target) (e : Emitter) : Op → Option (StmtId × List Operand × Nat)
  | .localLoad s is ty => some (s, is, ty.size)
  | .localStore s is value => some (s, is, (operandTy value t e).1.size)
  | .atomic (.local s is) _ _ _ => some (s, is, 1)
  | _ => none

theorem slot?_of_slotPart? {o : Op} (h : slotPart? t e o = some (s, is, n)) : o.slot? = some s := by
  cases o with
  | localLoad | localStore => cases h; rfl
  | atomic target kind v ty =>
    cases target with
    | global f p => cases h
    | «local» s is => cases h; rfl
  | _ => cases h

def temporaries (a : Address) : Nat → Word := wordAt "global_tmps" a true

/-- What is written for a statement that goes to the words of shared slots, from an address on. -/
def WrittenAt (t : Target) (e : Emitter) (id : StmtId) (a : Address) : Op → Prop
  | .localLoad s is ty =>
    (emitStmt (.op id (.localLoad s is ty)) t e).2.lines.toList = e.lines.toList
      ++ [indentation e.depth ++ s!"let {valueName id}: {ty.shaderText} = {readWords ty (temporaries a)};"]
  | .localStore s is value =>
    (emitStmt (.op id (.localStore s is value)) t e).2.lines.toList = e.lines.toList
      ++ (writeWords (operandTy value t e).1 (operand value t e).1 (temporaries a)).map (indentation e.depth ++ ·)
  | .atomic target kind value ty =>
    emitStmt (.op id (.atomic target kind value ty)) t e
      = atomicWord id (temporaries a 0) kind (operand value t e).1 ty t (resource .shared t e).2
  | _ => False

theorem writtenAt_shared (hb : Bound t e) {o : Op} {a : Address}
    (ho : slotPart? t e o = some (s, is, n)) (ha : localAccess s is t e = (.words a, e)) :
    WrittenAt t e id a o := by
  cases o with
  | localLoad s is ty =>
    cases ho
    simp only [WrittenAt, emitStmt, emitOp, run_bind, ha, readLocal, sharedWords_eq hb]
    exact lines_bindValue t e .shared id ty
  | localStore s is value =>
    cases ho
    simp only [WrittenAt, emitStmt, emitOp, run_bind, ha, operandTy_state, operand_state, writeLocal, sharedWords_eq hb]
    rw [← (resource_lines t e .shared).1, ← (resource_lines t e .shared).2]
    exact lines_forM
  | atomic target kind value ty =>
    cases target with
    | global f p => cases ho
    | «local» s is =>
      cases ho
      simp only [WrittenAt, emitStmt, emitOp, emitAtomic, run_bind, ha, operand_state, sharedWords_eq hb]
      rfl
  | _ => cases ho

end Written

end ArrayKernel.Shader

namespace ArrayKernel.IR

variable {k : Kernel} {ty : Ty}

/-! ## 5. Words of kernels -/

theorem Ty.size_bounds (h : ty.isStruct = false) : 0 < ty.size ∧ ty.size ≤ 16 := by
  cases ty with
  | scalar s => exact ⟨one_pos, (by decide : 1 ≤ 16)⟩
  | vector s n =>
    show 0 < n.toNat ∧ n.toNat ≤ 16
    cases n <;> decide
  | matrix r c => cases r <;> cases c <;> decide
  | struct ms => cases h

theorem wordsBefore_add_size_le {ps : List Param} {i : Nat} {p : Param} (h : ps[i]? = some p) :
    wordsBefore ps i + p.ty.size ≤ (ps.map fun p => p.ty.size).sum := by
  induction ps generalizing i with
  | nil => simp at h
  | cons q qs ih =>
    rw [List.map_cons, List.sum_cons]
    cases i with
    | zero =>
      cases h
      rw [wordsBefore_zero]
      omega
    | succ i =>
      have := ih h
      rw [wordsBefore_succ]
      omega

theorem Kernel.StartsAt.le {word : Nat} (h : k.StartsAt word ty) :
    word + ty.size ≤ k.paramWords := by
  obtain ⟨i, p, hp, rfl, rfl⟩ := h
  exact wordsBefore_add_size_le hp

theorem Kernel.paramWords_le : k.paramWords ≤ k.argWords := Nat.le_add_right _ _

theorem Kernel.paramWords_lt {task : Task} (ht : task ∈ k.tasks) (h : Shader.Draws task) :
    k.paramWords < k.argWords := by
  have hrandom : k.usesRandom = true := List.any_eq_true.2 ⟨task, ht, Shader.any_random_iff.2 h⟩
  rw [Kernel.argWords, if_pos hrandom]
  exact Nat.lt_succ_self _

theorem Kernel.retWords_eq (h : k.ret = some ty) : k.retWords = ty.size := by
  rw [Kernel.retWords, h]
  rfl

section Slots

variable {k : Kernel} (hd : (k.tasks.flatMap Task.ids).Nodup)
include hd

theorem SlotPart.select_shared (hk : k.shareSlots = k) {x : SharedSlot} (hx : x ∈ k.shared)
    {is : List Operand} {part : Ty} (h : SlotPart k.defs x.slot is part) :
    x.ty.select is.length = some part := by
  obtain ⟨-, slotTy, ⟨hint, hslot⟩, hsel⟩ := h
  obtain ⟨t, ht, hdeclared⟩ := declared_of_shared hk hx
  obtain ⟨s, hs, hdecl⟩ := List.mem_filterMap.1 hdeclared
  have hdef : ∃ hint, (x.slot, .op (.alloca x.ty hint)) ∈ k.defs := by
    cases s with
    | op i o =>
      cases o with
      | alloca ty hint =>
        cases hdecl
        exact ⟨hint, List.mem_flatMap.2 ⟨t, ht, List.mem_append_right _ (List.mem_filterMap.2 ⟨_, hs, rfl⟩)⟩⟩
      | _ => cases hdecl
    | _ => cases hdecl
  obtain ⟨hint', hdef⟩ := hdef
  cases k.def_eq hd hslot hdef
  exact hsel

end Slots

end ArrayKernel.IR

namespace ArrayKernel.Shader

open IR

theorem operandTy_eq {k : Kernel} (hd : (k.tasks.flatMap Task.ids).Nodup) {t : Target} {e : Emitter}
    {here : Defs} {ids : List StmtId} (hr : Ready t here ids e) (hin : here ⊆ k.defs) {o : Operand}
    (hv : Visible here o) {ty : Ty} (hty : HasTy k.defs o ty) : (operandTy o t e).1 = ty := by
  cases o with
  | const l => exact hty
  | stmt i =>
    obtain ⟨x, hx, -⟩ := hv
    obtain ⟨y, hy, hyty⟩ := hty
    cases k.def_eq hd (hin hx) hy
    obtain ⟨name, hvalue, -⟩ := (hr.found _ hx).value ty hyty
    show ((e.values[i]?).map Prod.snd).getD .i32 = ty
    rw [hvalue]
    rfl

/-! ## 6. Indices of lowered kernels -/

/-- The statement is written in the state when the shader of the task is. -/
def Visited (k : Kernel) (settings : CompilerSettings) (index : Nat) (task : Task) (s : Stmt)
    (e : Emitter) : Prop :=
  ∃ b ∈ taskBlocks (taskTarget k index task) settings task, Visits (taskTarget k index task) b.1 b.2 s e

/-- Every index that the shader of a task has into the arguments, the result and the shared slots is
within their words. -/
structure IndicesFit (k : Kernel) (settings : CompilerSettings) (index : Nat) (task : Task) :
    Prop where
  seed : (Draws task ∧ (seeded (taskTarget k index task) task).lines.toList
        = [indentation 1 ++ s!"rng_seed(gid.x, bitcast<u32>(args[{k.paramWords}]) ^ {index}u);"] ∧ k.paramWords < k.argWords) ∨
      ¬ Draws task ∧ (seeded (taskTarget k index task) task).lines.toList = []
  args : ∀ id word ty e, Visited k settings index task (.op id (.argLoad word ty)) e →
    (emitStmt (.op id (.argLoad word ty)) (taskTarget k index task) e).2.lines.toList = e.lines.toList
        ++ [indentation e.depth ++ s!"let {valueName id}: {ty.shaderText} = {loadText word ty};"] ∧ word < k.argWords
  rets : ∀ id value ty e, Visited k settings index task (.op id (.ret value ty)) e →
    (emitStmt (.op id (.ret value ty)) (taskTarget k index task) e).2.lines.toList = e.lines.toList
        ++ (List.range k.retWords).map fun c =>
          indentation e.depth ++ resultText (operand value (taskTarget k index task) e).1 ty c
  /-- A shared slot is reached by a sum, and with indices in range none of the words is outside.  (A
  buffer of so many words that 64 bits cannot count them is not ruled out, but nothing is said about
  its start.) -/
  shared : ∀ id o e s is n a, Visited k settings index task (.op id o) e →
    slotPart? (taskTarget k index task) e o = some (s, is, n) →
      (localAccess s is (taskTarget k index task) e).1 = .words a →
    WrittenAt (taskTarget k index task) e id a o ∧ ∃ x ∈ k.shared, x.slot = s
      ∧ a = (slotIndex (taskTarget k index task) e x.offset x.ty is).address
      ∧ ∀ env, InRange x.ty (is.map (operandValue env (taskTarget k index task) e)) → ∀ c < n,
        (slotIndex (taskTarget k index task) e x.offset x.ty is).value env + c < k.sharedWords
          ∧ (k.sharedWords < 2 ^ 63 → 0 ≤ (slotIndex (taskTarget k index task) e x.offset x.ty is).value env + c)
  /-- A statement that is the first to bind anything binds what it mentions: arguments for a load,
  results for a return, the shared slots for an access to one of them, and no other statement any of
  these. -/
  only : ∀ id o e, Visited k settings index task (.op id o) e → ∀ kind,
    kind ∈ (emitStmt (.op id o) (taskTarget k index task) { e with bindings := [] }).2.kinds
      ↔ Mentions (fieldIn task.statements) (sharedIn k) o kind

end ArrayKernel.Shader

namespace ArrayKernel.Lowering

open IR Surface Shader List

variable {r : Routine} {scope : Scope} {templates : List (String × Value)}
  {settings : CompilerSettings} {k : Kernel} {rs : Resources} {task : Task} {index : Nat}

structure OpPlaced (rs : Resources) (t : Target) (task : Task) (id : StmtId) (o : Op)
    (e : Emitter) : Prop where
  ready : ∃ here, Ready t here [id] e ∧ Within task.statements here ∧ here ⊆ t.kernel.defs
    ∧ (∀ x ∈ o.operands, Visible here x) ∧ Reaches t.kernel here o
  mem : .op id o ∈ t.kernel.statements
  typed : o.Typed rs t.kernel.defs
  flat : ∀ ty ∈ o.types, ty.isStruct = false
  ret : ∀ v ty, o = .ret v ty → t.kernel.ret = some ty

theorem typing_lower (hg : HostGives (WellFormed rs) scope templates)
    (h : lower r scope templates settings = .ok k) :
    (k.tasks.flatMap Task.ids).Nodup ∧ ∀ t ∈ k.tasks, ∀ s ∈ t.statements, (typing rs k.ret).holdsAt k.defs s := by
  obtain ⟨htasks, hnodup⟩ := hg.discipline valueOk_typedHost h fun _ _ => trivial
  have hdefs : ∀ t ∈ k.tasks, t.defs ⊆ k.defs := fun t ht x hx => mem_flatMap.2 ⟨t, ht, hx⟩
  have hall := Check.Gives.tasks (fun _ => discipline_gives_typing) (nil_subset _) hdefs htasks
  exact ⟨hnodup, fun t ht => (hall t ht).1⟩

theorem opPlaced_lower (hg : HostGives (WellFormed rs) scope templates)
    (h : lower r scope templates settings = .ok k) {settings' : CompilerSettings}
    (ht : k.tasks[index]? = some task) {id : StmtId} {o : Op} {e : Emitter}
    (hv : Visited k settings' index task (.op id o) e) :
    OpPlaced rs (taskTarget k index task) task id o e := by
  obtain ⟨b, hb, hv⟩ := hv
  obtain ⟨here, hstmt, hready, hwithin, hin⟩ :=
    (wrote_lower hg valueOk_typedHost (fun _ _ => trivial) h settings' ht).visits b hb _ e hv
  obtain ⟨hop, hsub⟩ := hstmt
  have hmem : IR.Stmt.op id o ∈ task.statements := hin id o (mem_singleton_self _)
  have hreach := reaches_of_scoped ht hmem hop.refs
  rw [shareSlots_lower h] at hreach
  have hmem' : IR.Stmt.op id o ∈ k.statements := mem_flatMap.2 ⟨task, mem_of_getElem? ht, hmem⟩
  have hall : k.past index ++ here ⊆ k.defs := append_subset.2 ⟨k.past_subset, hsub⟩
  exact ⟨⟨here, hready, hwithin, hsub, hop.refs.operands, hreach⟩, hmem',
    (hop.typed trivial).mono hall, hop.flat trivial, hop.ret⟩

namespace OpPlaced

variable {t : Target} {task : Task} {id : StmtId} {o : Op} {e : Emitter}
  (hp : OpPlaced rs t task id o e)
include hp

theorem bound : Shader.Bound t e := by
  obtain ⟨here, hready, -⟩ := hp.ready
  exact hready.bound

theorem kinds (hone : Unambiguous task.statements) (kind : ResourceKind) :
    kind ∈ (emitStmt (.op id o) t { e with bindings := [] }).2.kinds
      ↔ Mentions (fieldIn task.statements) (sharedIn t.kernel) o kind := by
  obtain ⟨here, hready, hwithin, -, -, hreach⟩ := hp.ready
  -- nothing that is looked up depends on what has been bound
  have hfound : ∀ p ∈ here, Found t { e with bindings := [] } p.1 p.2 := fun p hp =>
    ⟨(hready.found p hp).value, (hready.found p hp).address, (hready.found p hp).slot⟩
  have hfirst : Ready t here [id] { e with bindings := [] } :=
    ⟨⟨nodup_nil, rfl⟩, hfound, hready.shared, hready.fresh, hready.nodup, hready.apart⟩
  have hptr : ∀ p, o.ptr? = some p → ∃ f, FindsAddress { e with bindings := [] } p f := by
    intro p hp
    obtain ⟨f, -, -, -, hf⟩ := hfirst.findsAddress hreach hp
    exact ⟨f, hf⟩
  have hemitted : Emitted t id o { e with bindings := [] } (emitOp id o t { e with bindings := [] }).2 :=
    emitted_op hfirst.bound hptr (fun s hs => hfirst.findsSlot hreach hs) (hfirst.fresh id (mem_singleton_self _))
  rw [emitStmt, hemitted.adds.kinds, hfirst.binds_iff hreach hwithin hone]
  exact or_iff_right not_mem_nil

section Slots

variable (hd : (t.kernel.tasks.flatMap Task.ids).Nodup) {s : StmtId} {is : List Operand} {n : Nat}
  (hpart : slotPart? t e o = some (s, is, n))
include hd hpart

theorem slotPart : ∃ part : Ty, SlotPart t.kernel.defs s is part ∧ n = part.size := by
  obtain ⟨here, hready, -, hsub, hvisible, -⟩ := hp.ready
  have htyped := hp.typed
  cases o with
  | localLoad s is ty =>
    cases hpart
    exact ⟨ty, htyped, rfl⟩
  | localStore s is v =>
    cases hpart
    obtain ⟨ty, hslot, hty⟩ := htyped
    refine ⟨ty, hslot, ?_⟩
    rw [operandTy_eq hd hready hsub (hvisible v (mem_cons_self ..)) hty]
  | atomic target kind v ty =>
    cases target with
    | global f p => cases hpart
    | «local» s is =>
      cases hpart
      obtain ⟨hscalar, -, hslot⟩ := htyped
      refine ⟨ty, hslot, ?_⟩
      cases ty with
      | scalar s => rfl
      | _ => cases hscalar
  | _ => cases hpart

theorem shared_within (hk : t.kernel.shareSlots = t.kernel) {a : Address}
    (ha : (localAccess s is t e).1 = .words a) :
    WrittenAt t e id a o ∧ ∃ x ∈ t.kernel.shared, x.slot = s ∧ a = (slotIndex t e x.offset x.ty is).address
      ∧ ∀ env, InRange x.ty (is.map (operandValue env t e)) → ∀ c < n,
        (slotIndex t e x.offset x.ty is).value env + c < t.kernel.sharedWords
          ∧ (t.kernel.sharedWords < 2 ^ 63 → 0 ≤ (slotIndex t e x.offset x.ty is).value env + c) := by
  obtain ⟨here, hready, -, -, -, hreach⟩ := hp.ready
  obtain ⟨part, hslot, rfl⟩ := hp.slotPart hd hpart
  rcases hready.findsSlot hreach (slot?_of_slotPart? hpart) with ⟨hint, ty, hs, -⟩ | ⟨x, hx, rfl, hs⟩
  · -- a variable is not reached by an address
    obtain ⟨access, hvar, heq⟩ := localAccess_variable hs (begins_varName s hint) t is
    rw [heq] at ha
    cases ha
    cases hvar
  · have heq := localAccess_slotIndex (t := t) hs is
    rw [heq] at ha
    cases ha
    refine ⟨writtenAt_shared hready.bound hpart heq, x, hx, rfl, rfl, fun env hrange c hc => ?_⟩
    have hroom := offset_add_size_le hx
    have hselect := hslot.select_shared hd hk hx
    have hhigh := slotIndex_le x.offset hselect hrange
    refine ⟨by omega, fun hwords => ?_⟩
    have hlow := le_slotIndex hselect (by omega : x.offset + x.ty.size < 2 ^ 63) hrange
    omega

end Slots

end OpPlaced

/-- All indices of a lowered kernel are within the words of its launches. -/
theorem indicesFit_lower (hg : HostGives (WellFormed rs) scope templates)
    (h : lower r scope templates settings = .ok k) (settings' : CompilerSettings)
    (ht : k.tasks[index]? = some task) : IndicesFit k settings' index task where
  seed := by
    rcases lines_seeded with ⟨hdraws, hlines⟩ | hnone
    · exact .inl ⟨hdraws, hlines, Kernel.paramWords_lt (mem_of_getElem? ht) hdraws⟩
    · exact .inr hnone
  args id word ty e hv := by
    have hp := opPlaced_lower hg h ht hv
    have hstart := startsAt_of_argLoad (hg.imp fun _ => WellFormed.isTransient) h hp.mem
    have hsize := (Ty.size_bounds (hp.flat ty (mem_singleton_self ty))).1
    have hle := hstart.le
    have hargs := k.paramWords_le
    exact ⟨lines_argLoad hp.bound id word ty, by omega⟩
  rets id value ty e hv := by
    have hp := opPlaced_lower hg h ht hv
    have hsize := (Ty.size_bounds (hp.flat ty (mem_singleton_self ty))).2
    have hret : k.ret = some ty := hp.ret value ty rfl
    rw [Kernel.retWords_eq hret]
    exact lines_ret hp.bound (by omega)
  shared id o e s is n a hv hpart ha :=
    (opPlaced_lower hg h ht hv).shared_within (typing_lower hg h).1 hpart (shareSlots_lower h) ha
  only id o e hv := by
    have hids := (nodup_flatMap.1 (typing_lower hg h).1).1 task (mem_of_getElem? ht)
    exact (opPlaced_lower hg h ht hv).kinds (unambiguous_statements hids)

end ArrayKernel.Lowering
