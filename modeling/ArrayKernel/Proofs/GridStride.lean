import Mathlib.Algebra.Group.Int.Defs
import Mathlib.Logic.ExistsUnique
import ArrayKernel.Proofs.Meaning.Code
import ArrayKernel.Proofs.Shader.Declarations
import ArrayKernel.Settings.Config

/-!
# Parallel loops run through their range once

Every invocation runs the loop from its own start, in steps of the whole dispatch. As long as no
addition leaves 32 bits, an index is reached by the invocation of its remainder alone, and once.
-/

namespace ArrayKernel.Shader

open IR Meaning List Int32

/-! ## 1. Running the header -/

/-- The indices for which `for (…; i < last; i = i + stride)` runs its body, from an index on. -/
inductive Strides (last stride : Int32) : Int32 → List Int32 → Prop where
  | stop {i : Int32} : ¬ i < last → Strides last stride i []
  | step {i : Int32} {is : List Int32} : i < last → Strides last stride (i + stride) is →
      Strides last stride i (i :: is)

theorem Strides.unique {last stride i : Int32} {is js : List Int32} (h : Strides last stride i is)
    (h' : Strides last stride i js) : is = js := by
  induction h generalizing js with
  | stop hstop =>
    cases h' with
    | stop _ => rfl
    | step hlt _ => exact absurd hlt hstop
  | step hlt _ ih =>
    cases h' with
    | stop hstop => exact absurd hlt hstop
    | step _ hrest => rw [ih hrest]

section Run

variable {last : Int32} {n : Nat} (hn : 0 < n) (hroom : last.toInt + n < 2 ^ 31)
include hn hroom

theorem toInt_step (hstride : n < 2 ^ 31) {i : Int32} (hi : i < last) :
    (i + Int32.ofNat n).toInt = i.toInt + n := by
  have hlt := lt_iff_toInt_lt.1 hi
  have hlow := i.le_toInt
  rw [toInt_add, toInt_ofNat_of_lt hstride, Int.bmod_eq_of_le (by omega) (by omega)]

theorem exists_strides (hstride : n < 2 ^ 31) (i : Int32) :
    ∃ is, Strides last (Int32.ofNat n) i is := by
  -- the distance to the end of the range gets smaller with every step
  induction hd : (last.toInt - i.toInt).toNat using Nat.strongRecOn generalizing i with
  | ind d ih =>
    by_cases hi : i < last
    · have hnext := toInt_step hn hroom hstride hi
      have hlt := lt_iff_toInt_lt.1 hi
      obtain ⟨is, his⟩ := ih (last.toInt - (i + Int32.ofNat n).toInt).toNat (by omega) (i + Int32.ofNat n) rfl
      exact ⟨i :: is, .step hi his⟩
    · exact ⟨[], .stop hi⟩

/-- It runs its body for the indices of the range that are whole steps away from the first, in
ascending order. -/
theorem Strides.mem_iff (hstride : n < 2 ^ 31) {i : Int32} {is : List Int32}
    (h : Strides last (Int32.ofNat n) i is) :
    (∀ j, j ∈ is ↔ i ≤ j ∧ j < last ∧ (n : Int) ∣ j.toInt - i.toInt) ∧ is.Pairwise (· < ·) := by
  induction h with
  | @stop i hi =>
    refine ⟨fun j => ?_, .nil⟩
    simp only [not_mem_nil, false_iff]
    rintro ⟨hij, hj, -⟩
    exact hi (Int32.lt_of_le_of_lt hij hj)
  | @step i is hi hrest ih =>
    obtain ⟨hmem, hsorted⟩ := ih
    have hnext := toInt_step hn hroom hstride hi
    have hlater : ∀ j ∈ is, i < j := fun j hj => by
      have hle := le_iff_toInt_le.1 ((hmem j).1 hj).1
      exact lt_iff_toInt_lt.2 (by omega)
    refine ⟨fun j => ?_, pairwise_cons.2 ⟨hlater, hsorted⟩⟩
    rw [mem_cons, hmem, hnext, le_iff_toInt_le, le_iff_toInt_le, hnext]
    constructor
    · rintro (rfl | ⟨hle, hj, hdvd⟩)
      · exact ⟨Int.le_refl _, hi, by rw [Int.sub_self]; exact Int.dvd_zero _⟩
      · refine ⟨by omega, hj, ?_⟩
        have hsum := Int.dvd_add hdvd (Int.dvd_refl (n : Int))
        rwa [show j.toInt - (i.toInt + n) + n = j.toInt - i.toInt by omega] at hsum
    · rintro ⟨hle, hj, c, hc⟩
      -- no step at all, or one and the rest
      by_cases hzero : c = 0
      · rw [hzero, Int.mul_zero] at hc
        exact .inl (toInt_inj.1 (by omega))
      · have hpos : 0 < c := by
          by_contra hneg
          have := Int.mul_le_mul_of_nonneg_left (show c ≤ -1 by omega) (Int.natCast_nonneg n)
          omega
        have hmul := Int.mul_le_mul_of_nonneg_left (show 1 ≤ c by omega) (Int.natCast_nonneg n)
        refine .inr ⟨by omega, hj, c - 1, ?_⟩
        rw [Int.mul_sub, Int.mul_one]
        omega

end Run

/-! ## 2. All invocations -/

/-- The invocations run through the range: each index in one of them, there once, and no other
index. -/
structure CoversOnce (first last : Int32) (invocations : Nat) (visits : Nat → List Int32) :
    Prop where
  within : ∀ gid < invocations, ∀ i ∈ visits gid, first ≤ i ∧ i < last
  once : ∀ gid < invocations, (visits gid).Nodup
  covered : ∀ i, first ≤ i → i < last → ∃! gid, gid < invocations ∧ i ∈ visits gid

def startOf (first : Int32) (gid : Nat) : Int32 := first + (UInt32.ofNat gid).toInt32

theorem toInt_startOf {first : Int32} {n gid : Nat} (hstride : n < 2 ^ 31)
    (hroom : first.toInt + n < 2 ^ 31) (hgid : gid < n) :
    (startOf first gid).toInt = first.toInt + gid := by
  have hlow := first.le_toInt
  show (first + Int32.ofNat gid).toInt = _
  rw [toInt_add, toInt_ofNat_of_lt (by omega), Int.bmod_eq_of_le (by omega) (by omega)]

/-- Invocations that start one after the other and go on in steps of all of them cover the range
once. -/
theorem coversOnce_strides {first last : Int32} {n : Nat} (hn : 0 < n) (hstride : n < 2 ^ 31)
    (hroom : max first.toInt last.toInt + n < 2 ^ 31) {visits : Nat → List Int32}
    (hvisits : ∀ gid < n, Strides last (Int32.ofNat n) (startOf first gid) (visits gid)) :
    CoversOnce first last n visits := by
  have hlast : last.toInt + n < 2 ^ 31 := by omega
  have hstart : ∀ gid < n, (startOf first gid).toInt = first.toInt + gid := fun gid => toInt_startOf hstride (by omega)
  have hmem : ∀ gid < n, ∀ i, i ∈ visits gid ↔
      first.toInt + gid ≤ i.toInt ∧ i < last ∧ (n : Int) ∣ i.toInt - (first.toInt + gid) := fun gid hgid i => by
    rw [((hvisits gid hgid).mem_iff hn hlast hstride).1 i, le_iff_toInt_le, hstart gid hgid]
  refine ⟨fun gid hgid i hi => ?_, fun gid hgid => ?_, fun i hfirst hi => ?_⟩
  · obtain ⟨hle, hlt, -⟩ := (hmem gid hgid i).1 hi
    exact ⟨le_iff_toInt_le.2 (by omega), hlt⟩
  · exact ((hvisits gid hgid).mem_iff hn hlast hstride).2.imp fun hlt => Int32.ne_of_lt hlt
  · -- the invocation is the remainder of the distance from the first index
    obtain ⟨d, hd⟩ : ∃ d : Nat, i.toInt = first.toInt + d :=
      ⟨(i.toInt - first.toInt).toNat, by have := le_iff_toInt_le.1 hfirst; omega⟩
    have hmod := Nat.mod_lt d hn
    have hdiv := Nat.div_add_mod d n
    refine ⟨d % n, ⟨hmod, (hmem _ hmod i).2 ⟨?_, hi, (d / n : Nat), ?_⟩⟩, ?_⟩
    · have := Nat.mod_le d n
      omega
    · rw [hd, ← Int.natCast_mul]
      omega
    · rintro gid ⟨hgid, hvisit⟩
      obtain ⟨hle, -, c, hc⟩ := (hmem gid hgid i).1 hvisit
      have hc' : (d : Int) = gid + n * c := by omega
      have hrem : (d : Int) % n = gid := by
        rw [hc', Int.add_mul_emod_self_left]
        exact Int.emod_eq_of_lt (Int.natCast_nonneg gid) (by omega)
      exact_mod_cast hrem.symm

/-! ## 3. The dispatch of a task -/

section Dispatch

variable {settings : Settings} (hs : settings.validate = .ok ())
include hs

theorem workgroupSize_bounds :
    0 < settings.compiler.workgroupSize ∧ settings.compiler.workgroupSize ≤ 256 := by
  by_contra hbad
  have hwrong : (settings.compiler.workgroupSize = 0 || 256 < settings.compiler.workgroupSize : Bool) = true := by
    simp only [Bool.or_eq_true, decide_eq_true_eq]
    omega
  rw [Settings.validate, if_pos hwrong] at hs
  cases hs

theorem invocations_lt (threads : Nat) :
    0 < workgroupCount threads settings.compiler.workgroupSize * settings.compiler.workgroupSize
      ∧ workgroupCount threads settings.compiler.workgroupSize * settings.compiler.workgroupSize < 2 ^ 31 := by
  obtain ⟨hpos, hle⟩ := workgroupSize_bounds hs
  have hcount : 0 < workgroupCount threads settings.compiler.workgroupSize
      ∧ workgroupCount threads settings.compiler.workgroupSize ≤ 65535 :=
    ⟨Nat.lt_of_lt_of_le Nat.one_pos (Nat.le_max_left ..), Nat.max_le.2 ⟨by decide, Nat.min_le_left ..⟩⟩
  have hmul := Nat.mul_le_mul hcount.2 hle
  exact ⟨Nat.mul_pos hcount.1 hpos, by omega⟩

end Dispatch

def headerState (t : Target) (task : Task) (loop : ParallelLoop) : Emitter :=
  (declareIndex loop.index loop.hint t (emitBlock loop.prologue t (seeded t task)).2).2

theorem strideHeader_eq (id : StmtId) (hint first last : String) {stride : UInt32} {n : Nat}
    (h : stride.toNat = n) : strideHeader id hint first last stride =
      let name := varName id hint
      s!"for (var {name}: i32 = {first} + i32(gid.x); {name} < {last}; {name} = {name} + {n}i) \x7b" := by
  subst h
  rfl

theorem hasLine_strideHeader (k : Kernel) (settings : CompilerSettings) (index : Nat) {task : Task}
    {loop : ParallelLoop} (hloop : task.loop = some loop) :
    HasLine (ofTask k settings index task).text
      (indentation (headerState (taskTarget k index task) task loop).depth
        ++ strideHeader loop.index loop.hint (operand loop.first (taskTarget k index task)
          (headerState (taskTarget k index task) task loop)).1
          (operand loop.last (taskTarget k index task)
            (headerState (taskTarget k index task) task loop)).1 (strideOf settings loop)) := by
  obtain ⟨_, body⟩ := task
  cases hloop
  apply hasLine_ofTask
  generalize taskTarget k index ⟨some loop, body⟩ = t
  -- the body and the end of the loop are written after it
  have hafter := (advances_block t (insideParallel settings loop t
    (emitBlock loop.prologue t (seeded t ⟨some loop, body⟩)).2) body).trans (advances_closed t _)
  refine hafter.lines.subset ?_
  show _ ∈ (line _ t (headerState t ⟨some loop, body⟩ loop)).2.lines.toList
  rw [lines_line]
  exact mem_append_right _ (mem_singleton_self _)

/-- The iterations of a loop, if both bounds are constants, or else a number for all loops. -/
def tripCount (dynamic : Nat) : Operand → Operand → Nat
  | .const (.i32 first), .const (.i32 last) => (last.toInt - first.toInt).toNat
  | _, _ => dynamic

theorem threads_eq {first last : Operand} {σ : Store} {a b : Int32} (ha : σ.value first = some a)
    (hb : σ.value last = some b) (dynamic : Nat) :
    (Lowering.constThreads? first last).getD dynamic = tripCount dynamic first last := by
  cases first with
  | stmt i => rfl
  | const l =>
    cases last with
    | stmt j =>
      cases l with
      | i32 v => rfl
      | _ => cases ha
    | const m =>
      cases l with
      | i32 v =>
        cases m with
        | i32 w =>
          have hlow := v.le_toInt
          have hhigh := w.toInt_lt
          exact Nat.min_eq_left (by omega)
        | _ => cases hb
      | _ => cases ha

/-- How a parallel loop is spread over the invocations of its dispatch. -/
structure SpreadOnce (k : Kernel) (settings : CompilerSettings) (index : Nat) (task : Task)
    (loop : ParallelLoop) (invocations : Nat) : Prop where
  positive : 0 < invocations
  small : invocations < 2 ^ 31
  header :
    let e := headerState (taskTarget k index task) task loop
    let first := (operand loop.first (taskTarget k index task) e).1
    let last := (operand loop.last (taskTarget k index task) e).1
    let name := varName loop.index loop.hint
    HasLine (ofTask k settings index task).text (indentation e.depth
      ++ s!"for (var {name}: i32 = {first} + i32(gid.x); {name} < {last}; {name} = {name} + {invocations}i) \x7b")
  /-- The dispatch is sized for the iterations, if their number is known. -/
  threads : ∀ (σ : Store) (a b : Int32), σ.value loop.first = some a → σ.value loop.last = some b →
    loop.threads = Lowering.constThreads? loop.first loop.last →
    (ofTask k settings index task).threads = tripCount settings.dynamicThreads loop.first loop.last
  /-- Every invocation runs through indices of its own, and all of them through the range. -/
  covers : ∀ (σ : Store) (a b : Int32), σ.value loop.first = some a → σ.value loop.last = some b →
    max a.toInt b.toInt + invocations < 2 ^ 31 →
    ∃ visits, (∀ gid < invocations, ∀ is, Strides b (Int32.ofNat invocations) (startOf a gid) is ↔ is = visits gid)
      ∧ CoversOnce a b invocations visits

/-- Of any parallel task, with settings that are valid. -/
theorem spreadOnce (settings : Settings) (hs : settings.validate = .ok ()) (k : Kernel)
    (index : Nat) (task : Task) (loop : ParallelLoop) (hloop : task.loop = some loop) :
    SpreadOnce k settings.compiler index task loop
      ((ofTask k settings.compiler index task).workgroups * (ofTask k settings.compiler index task).workgroupSize) := by
  have hshape : (ofTask k settings.compiler index task).workgroups
    * (ofTask k settings.compiler index task).workgroupSize
        = workgroupCount (loop.threads.getD settings.compiler.dynamicThreads)
          settings.compiler.workgroupSize * settings.compiler.workgroupSize
      ∧ (ofTask k settings.compiler index task).threads = loop.threads.getD settings.compiler.dynamicThreads := by
    obtain ⟨_, body⟩ := task
    cases hloop
    exact ⟨rfl, rfl⟩
  obtain ⟨hinvocations, hthreads⟩ := hshape
  obtain ⟨hpos, hlt⟩ := invocations_lt hs (loop.threads.getD settings.compiler.dynamicThreads)
  have hstride : (strideOf settings.compiler loop).toNat = _ := UInt32.toNat_ofNat_of_lt' (Nat.lt_trans hlt (by decide))
  rw [← hinvocations] at hpos hlt hstride
  generalize (ofTask k settings.compiler index task).workgroups
    * (ofTask k settings.compiler index task).workgroupSize = invocations at hpos hlt hstride ⊢
  refine ⟨hpos, hlt, ?_, ?_, ?_⟩
  · have hline := hasLine_strideHeader k settings.compiler index hloop
    rw [strideHeader_eq _ _ _ _ hstride] at hline
    exact hline
  · intro σ a b ha hb hconst
    rw [hthreads, hconst]
    exact threads_eq ha hb _
  · intro σ a b ha hb hroom
    have hlast : b.toInt + invocations < 2 ^ 31 :=
      Int.lt_of_le_of_lt (Int.add_le_add_right (Int.le_max_right ..) _) hroom
    have hrun : ∀ gid, ∃ is, Strides b (Int32.ofNat invocations) (startOf a gid) is := fun gid =>
      exists_strides hpos hlast hlt (startOf a gid)
    choose visits hvisits using hrun
    refine ⟨visits, fun gid _ is => ⟨fun his => his.unique (hvisits gid), ?_⟩,
      coversOnce_strides hpos hlt hroom fun gid _ => hvisits gid⟩
    rintro rfl
    exact hvisits gid

def wideLoop : ParallelLoop where
  prologue := []
  first := .int (-5)
  last := .int 100000
  index := 0
  hint := "i"
  threads := some 100005

def wideKernel : Kernel where
  name := "wide"
  params := []
  ret := none
  tasks := [{ loop := some wideLoop, body := [] }]
  fields := []
  textures := []

/-- More indices than threads, from a negative one on. -/
theorem spreadOnce_wide :
    ({ compiler := { workgroupSize := 1 } } : Settings).validate = .ok ()
      ∧ (ofTask wideKernel { workgroupSize := 1 } 0 ⟨some wideLoop, []⟩).workgroups = 65535
      ∧ SpreadOnce wideKernel { workgroupSize := 1 } 0 ⟨some wideLoop, []⟩ wideLoop 65535
      ∧ ∃ visits, CoversOnce (-5) 100000 65535 visits := by
  have h : SpreadOnce wideKernel { workgroupSize := 1 } 0 ⟨some wideLoop, []⟩ wideLoop 65535 :=
    spreadOnce { compiler := { workgroupSize := 1 } } (by decide) wideKernel 0 ⟨some wideLoop, []⟩ wideLoop rfl
  obtain ⟨visits, -, hcovers⟩ := h.covers ⟨fun _ => none, fun _ => none⟩ (-5) 100000 rfl rfl (by decide)
  exact ⟨by decide, rfl, h, visits, hcovers⟩

end ArrayKernel.Shader
