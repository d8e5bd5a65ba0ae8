import ArrayKernel.Proofs.ClosedShaders

/-!
# Shaders of lowered kernels

The references of a lowered kernel are in order up to the indices of elements, which is enough for
every address and slot to be found.
-/

namespace ArrayKernel.IR

open List Stmt

theorem Check.task_of_tasks {c : Defs → Check} {past : Defs} {ts : List Task} {i : Nat} {t : Task}
    (h : Check.tasks c past ts) (ht : ts[i]? = some t) :
    (c (past ++ (ts.take i).flatMap Task.outer)).task t := by
  induction ts generalizing past i with
  | nil => simp at ht
  | cons u us ih =>
    cases i with
    | zero =>
      cases ht
      rw [take_zero, flatMap_nil, append_nil]
      exact h.1
    | succ i =>
      rw [take_succ_cons, flatMap_cons, ← append_assoc]
      exact ih h.2 ht

def Check.inside (D : Defs) : Check where
  op here _ := here ⊆ D
  loop here _ _ _ := here ⊆ D
  cond here _ := here ⊆ D

namespace Check

variable {D : Defs}

mutual

theorem inside_stmt :
    {d : Defs} → (s : Stmt) → d ⊆ D → (flatten s).filterMap def? ⊆ D → (inside D).stmt d s
  | d, .op i o, hd, _ => by
    exact hd
  | d, .rangeFor i first last body hint, hd, hD => by
    obtain ⟨hi, hbody⟩ := cons_subset.1 hD
    exact ⟨hd, inside_block body (append_subset.2 ⟨hd, cons_subset.2 ⟨hi, nil_subset _⟩⟩) hbody⟩
  | d, .while_ i condBody cond body, hd, hD => by
    simp only [Stmt.flatten, filterMap_cons, filterMap_append] at hD
    obtain ⟨hcond, hbody⟩ := append_subset.1 hD
    refine ⟨inside_block condBody hd hcond, ?_, inside_block body hd hbody⟩
    exact append_subset.2 ⟨hd, List.Subset.trans defsOf_subset hcond⟩
  | d, .ifElse i cond yes no, hd, hD => by
    simp only [Stmt.flatten, filterMap_cons, filterMap_append] at hD
    obtain ⟨hyes, hno⟩ := append_subset.1 hD
    exact ⟨hd, inside_block yes hd hyes, inside_block no hd hno⟩

theorem inside_block :
    {d : Defs} → (ss : List Stmt) → d ⊆ D → allDefs ss ⊆ D → (inside D).block d ss
  | _, [], _, _ => trivial
  | d, s :: ss, hd, hD => by
    rw [allDefs_cons] at hD
    obtain ⟨hs, hss⟩ := append_subset.1 hD
    exact ⟨inside_stmt s hd hs, inside_block ss (append_subset.2 ⟨hd, List.Subset.trans (defs_subset s) hs⟩) hss⟩

end

theorem inside_task {t : Task} (h : t.defs ⊆ D) : (inside D).task t := by
  obtain ⟨loop, body⟩ := t
  cases loop with
  | none => exact inside_block body (nil_subset _) h
  | some l =>
    obtain ⟨hi, hrest⟩ := append_subset.1 h
    simp only [Task.statements, filterMap_append] at hrest
    obtain ⟨hpro, hbody⟩ := append_subset.1 hrest
    have hdefs := List.Subset.trans defsOf_subset hpro
    exact ⟨inside_block _ (nil_subset _) hpro, hdefs, inside_block body (append_subset.2 ⟨hdefs, hi⟩) hbody⟩

end Check

theorem Kernel.past_subset {k : Kernel} {index : Nat} : k.past index ⊆ k.defs := by
  intro x hx
  obtain ⟨t, ht, hx⟩ := mem_flatMap.1 hx
  exact mem_flatMap.2 ⟨t, mem_of_mem_take ht, hx⟩

end ArrayKernel.IR

namespace ArrayKernel.Lowering

open IR Surface Shader

variable {r : Routine} {scope : Scope} {templates : List (String × Value)}
  {settings : CompilerSettings} {k : Kernel}

theorem shareSlots_lower (h : lower r scope templates settings = .ok k) : k.shareSlots = k := by
  unfold lower at h
  split at h
  · rename_i k0 b hrun
    cases h
    obtain ⟨⟨params, inner⟩, b1, -, h1⟩ := bind_ok hrun
    obtain ⟨s, b2, -, h2⟩ := bind_ok h1
    obtain ⟨u, b3, -, h3⟩ := bind_ok h2
    cases h3
    rfl
  · cases h

/-- The check that the tasks of a lowered kernel pass when they are written. -/
abbrev writing (H : Host) (k : Kernel) (index : Nat) : Check :=
  (discipline H k.fields (k.past index) k.ret).both (.inside k.defs)

/-- Every task of a lowered kernel is written from states in which addresses and slots are found. -/
theorem wrote_lower {H : Host} {P : Value → Prop} (hg : HostGives P scope templates)
    (hP : ∀ v, v.isRecord = false → P v → ValueOk H .empty v) (harg : ∀ i ty, H.arg i ty)
    (h : lower r scope templates settings = .ok k) (settings' : CompilerSettings) {index : Nat}
    {task : Task} (ht : k.tasks[index]? = some task) :
    TaskWrote (taskTarget k index task) settings' (writing H k index) task := by
  obtain ⟨htasks, hnodup⟩ := hg.discipline hP h harg
  have hids : task.ids.Nodup := (List.nodup_flatMap.1 hnodup).1 task (List.mem_of_getElem? ht)
  have hslots : (k.shared.map SharedSlot.slot).Nodup := by
    rw [← shareSlots_lower h]
    show ((placeSlots 0 (sharedSlots k.tasks)).map SharedSlot.slot).Nodup
    rw [map_slot_placeSlots]
    exact nodup_sharedSlots hnodup
  have houter : [] ++ (k.tasks.take index).flatMap Task.outer ⊆ k.past index := by
    intro x hx
    obtain ⟨u, hu, hx⟩ := List.mem_flatMap.1 hx
    exact List.mem_flatMap.2 ⟨u, hu, u.outer_subset hx⟩
  have hpast : (discipline H k.fields ([] ++ (k.tasks.take index).flatMap Task.outer) k.ret).Implies
      (discipline H k.fields (k.past index) k.ret) := discipline_implies (List.Subset.refl _) houter fun _ => id
  have hinside : (Check.inside k.defs).task task := by
    refine Check.inside_task fun x hx => ?_
    exact List.mem_flatMap.2 ⟨task, List.mem_of_getElem? ht, hx⟩
  refine wrote_task hslots hids ?_ (Check.both_task (hpast.task (Check.task_of_tasks htasks ht)) hinside)
  intro d i o hmem ho
  have hreach := reaches_of_scoped ht hmem ho.1.refs
  rw [shareSlots_lower h] at hreach
  exact hreach

end ArrayKernel.Lowering
