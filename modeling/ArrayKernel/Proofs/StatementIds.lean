import ArrayKernel.Proofs.Lowering.Traversal
import ArrayKernel.Proofs.Scoping

/-!
# Where the statements go

Each id that lowering gives out is in the open block, in a task, in a captured block, or among the
statements that were left out, and only once (`Accounted`). Left out is the condition of a loop
that never runs, which may write to a field.
-/

namespace ArrayKernel.Lowering

open IR Surface IR.Stmt

variable {settings : CompilerSettings} {b : Builder}

/-! ## 1. Kernels -/

/-- When a kernel has been lowered, its ids and those of the statements that were left out are the
ids that were given out, each once. -/
theorem perm_ids {r : Routine} {scope : Scope} {templates : List (String × Value)} {k : Kernel}
    (h : (kernelOf r scope templates settings).run {} = .ok k b) :
    (k.tasks.flatMap Task.ids ++ idsOf b.idle).Perm (List.range b.nextId) := by
  obtain ⟨haccounted, htasks, -, es, -, hlayout⟩ :=
    kernelOf_ok (fun _ => trivial) ⟨fun _ _ _ _ => trivial, fun _ _ _ _ => trivial⟩
      (fun _ _ _ _ => trivial) (fun _ _ _ => trivial) callClosed_all h
  have hblock : b.block.toList = [] := by
    rw [Layout.after_append] at hlayout
    exact (congrArg Layout.block hlayout).trans (Layout.block_cut _)
  simpa only [Accounted, Builder.held, hblock, htasks, idsOf_nil, List.nil_append,
    List.append_nil] using haccounted

theorem idsOf_eq_nil {ss : List IR.Stmt} : idsOf ss = [] ↔ ss = [] := by
  constructor
  · intro h
    cases ss with
    | nil => rfl
    | cons s ss => cases s <;> simp [idsOf, flattenAll, flatten] at h
  · rintro rfl
    rfl

/-- A kernel has all ids that were given out, each once, exactly if no statement was left out. -/
theorem all_ids_iff {r : Routine} {scope : Scope} {templates : List (String × Value)} {k : Kernel}
    (h : (kernelOf r scope templates settings).run {} = .ok k b) :
    (k.tasks.flatMap Task.ids ++ IR.Stmt.idsOf b.idle).Perm (List.range b.nextId) ∧
      ((k.tasks.flatMap Task.ids).Perm (List.range b.nextId) ↔ b.idle = []) := by
  have hall := perm_ids h
  refine ⟨hall, fun hk => ?_, fun hidle => ?_⟩
  · -- Nothing is left for the ids of what was left out.
    have hlength := hall.length_eq
    rw [List.length_append, hk.length_eq] at hlength
    exact idsOf_eq_nil.1 (List.length_eq_zero_iff.1 (by omega))
  · rwa [hidle, IR.Stmt.idsOf_nil, List.append_nil] at hall

/-! ## 2. A condition that writes -/

def lowersTo (p : Kernel → Builder → Bool) (source : String) (scope : Scope) : Bool :=
  match Routine.parse kernelFile source with
  | .ok r =>
    match (kernelOf r scope [] {}).run {} with
    | .ok k b => p k b
    | .error .. => false
  | .error _ => false

theorem exists_of_lowersTo (p : Kernel → Builder → Bool) (source : String) (scope : Scope)
    (h : lowersTo p source scope) :
    ∃ r k b, Routine.parse kernelFile source = .ok r ∧ (kernelOf r scope [] {}).run {} = .ok k b ∧ p k b := by
  unfold lowersTo at h
  split at h
  · split at h
    · exact ⟨_, _, _, ‹_›, ‹_›, h⟩
    · cases h
  · cases h

def outScope : Scope where
  table := [("out", .field { id := 0, name := "out", shape := [4], elem := .i32 })]

def countdownSource : String :=
  "(n: i32) => \x7b for (const i of range(4)) \x7b let j = i; while (((x) => x > 0)(j)) \x7b j -= 1; out[i] += n > 2 ? j : i \x7d \x7d \x7d"

def writtenOnceSource : String :=
  "() => \x7b while (((x) => \x7b out[0] = x; return 0 \x7d)(3)) \x7b out[1] = 7 \x7d out[2] = 5 \x7d"

/-- Loops, branches, choices and calls with conditions that are not known. -/
theorem all_ids_countdown :
    ∃ r k b, Routine.parse kernelFile countdownSource = .ok r ∧ (kernelOf r outScope [] {}).run {} = .ok k b
      ∧ (k.tasks.flatMap Task.ids).Perm (List.range b.nextId) := by
  obtain ⟨r, k, b, hr, hk, hidle⟩ :=
    exists_of_lowersTo (fun _ b => b.idle.isEmpty) countdownSource outScope (by decide +kernel)
  exact ⟨r, k, b, hr, hk, (all_ids_iff hk).2.2 (List.isEmpty_iff.1 hidle)⟩

/-- The condition writes to a field and is zero: the loop is left out, and the write with it. -/
theorem write_left_out :
    ∃ r k b, Routine.parse kernelFile writtenOnceSource = .ok r ∧ (kernelOf r outScope [] {}).run {} = .ok k b
      ∧ ¬ (k.tasks.flatMap Task.ids).Perm (List.range b.nextId)
      ∧ b.idle.filterMap IR.Stmt.op? = [.globalPtr 0 [.int 0] (.int 0), .globalStore 0 (.int 3)] := by
  obtain ⟨r, k, b, hr, hk, hp⟩ := exists_of_lowersTo (fun k b =>
    ¬ (k.tasks.flatMap Task.ids).Perm (List.range b.nextId)
      ∧ b.idle.filterMap IR.Stmt.op? = [.globalPtr 0 [.int 0] (.int 0), .globalStore 0 (.int 3)])
    writtenOnceSource outScope (by decide +kernel)
  exact ⟨r, k, b, hr, hk, of_decide_eq_true hp⟩

end ArrayKernel.Lowering
