import ArrayKernel.Proofs.IR.Placement
import ArrayKernel.Proofs.Shader.SlotCode

/-!
# Sharing of slots is exact

Exactly the slots that go from task to task have words of a buffer, which do not overlap and leave
no gap. A statement that goes to a slot is written with these words, or the slot is declared in the
same shader (`slotsShared`).
-/

namespace ArrayKernel.IR

variable {k : Kernel} {task : Task}

def Kernel.SlotsMade (k : Kernel) : Prop :=
  ∀ u ∈ k.tasks, ∀ i o slot, u.Contains (.op i o) → Accesses slot o →
    ∃ t ∈ k.tasks, ∃ ty hint, t.Contains (.op slot (.alloca ty hint))

theorem Kernel.slotsMade_iff :
    k.SlotsMade ↔ ∀ u ∈ k.tasks, ∀ slot ∈ u.used, ∃ t ∈ k.tasks, ∃ x ∈ t.declared, x.1 = slot := by
  constructor
  · intro h u hu slot hused
    obtain ⟨i, o, hcontains, haccess⟩ := Task.mem_used.1 hused
    obtain ⟨t, ht, ty, hint, halloca⟩ := h u hu i o slot hcontains haccess
    exact ⟨t, ht, (slot, ty), Task.mem_declared.2 ⟨hint, halloca⟩, rfl⟩
  · intro h u hu i o slot hcontains haccess
    obtain ⟨t, ht, ⟨s, ty⟩, hdeclared, rfl⟩ := h u hu slot (Task.mem_used.2 ⟨i, o, hcontains, haccess⟩)
    obtain ⟨hint, halloca⟩ := Task.mem_declared.1 hdeclared
    exact ⟨t, ht, ty, hint, halloca⟩

instance (k : Kernel) : Decidable k.SlotsMade := decidable_of_iff' _ Kernel.slotsMade_iff

/-- A slot that is not shared is made in every task that goes to it. -/
theorem Kernel.SlotsMade.own (h : k.SlotsMade) {index : Nat} (ht : k.tasks[index]? = some task)
    {i : StmtId} {o : Op} {slot : StmtId} (hcontains : task.Contains (.op i o))
    (haccess : Accesses slot o) (hown : ∀ x ∈ k.shareSlots.shared, x.slot ≠ slot) :
    ∃ ty hint, task.Contains (.op slot (.alloca ty hint)) := by
  obtain ⟨t, hmem, ty, hint, halloca⟩ := h task (List.mem_of_getElem? ht) i o slot hcontains haccess
  obtain ⟨home, hhome⟩ := List.mem_iff_getElem?.1 hmem
  by_cases heq : home = index
  · subst heq
    rw [hhome] at ht
    cases ht
    exact ⟨ty, hint, halloca⟩
  · -- made elsewhere, it would be shared
    obtain ⟨x, hx, hslot⟩ := exists_shared_iff.2 ⟨home, index, t, task, hhome, ht, heq,
      ⟨ty, hint, halloca⟩, i, o, hcontains, haccess⟩
    exact absurd hslot (hown x hx)

theorem nodup_task (h : (k.statements.map Stmt.id).Nodup) (ht : task ∈ k.tasks) :
    (task.statements.map Stmt.id).Nodup := by
  rw [Kernel.statements, List.map_flatMap] at h
  exact (List.nodup_flatMap.1 h).1 task ht

end ArrayKernel.IR

namespace ArrayKernel.Shader

open IR

variable {t : Target} {e : Emitter} {o : Op} {slot : StmtId}

/-! ## 1. Where a statement finds its slot -/

def UsesWords (k : Kernel) (index : Nat) (task : Task) (id : StmtId) (o : Op) (slot : StmtId)
    (is : List Operand) (e : Emitter) : Prop :=
  ∃ x ∈ k.shared, x.slot = slot
    ∧ WrittenAt (taskTarget k index task) e id (slotIndex (taskTarget k index task) e x.offset x.ty is).address o

/-- The slot is not shared. The task makes it, its declaration is a line of the shader, and if it
is made before the statement, the statement is written with the variable that has been declared. -/
def UsesVariable (k : Kernel) (settings : CompilerSettings) (index : Nat) (task : Task)
    (id : StmtId) (o : Op) (slot : StmtId) (is : List Operand) (e : Emitter) : Prop :=
  (∀ x ∈ k.shared, x.slot ≠ slot) ∧ ∃ ty hint, task.Contains (.op slot (.alloca ty hint))
    ∧ (∃ depth, HasLine (ofTask k settings index task).text (indentation depth ++ slotLine slot ty hint))
    ∧ ∀ before after, task.statements = before ++ .op id o :: after → .op slot (.alloca ty hint) ∈ before →
      ∃ access, access.Through (varName slot hint) ∧ localAccess slot is (taskTarget k index task) e = (access, e)
        ∧ WrittenThrough (taskTarget k index task) e id access o

section Task

variable {k : Kernel} {settings : CompilerSettings} {index n : Nat} {task : Task} {id : StmtId}
  {is : List Operand} {hint : String} {ty : Ty}

theorem Visited.split {s : Stmt} (h : Visited k settings index task s e) :
    ∃ before after, task.statements = before ++ s.flatten ++ after ∧ Bound (taskTarget k index task) e
      ∧ e.slots = before.foldl declareSlot (initialSlots k)
      ∧ ∀ l ∈ (emitStmt s (taskTarget k index task) e).2.lines.toList,
        HasLine (ofTask k settings index task).text l := by
  obtain ⟨b, hb, hv⟩ := h
  obtain ⟨before, after, hsplit, hbefore, hafter⟩ := hv.advances_task hb
  refine ⟨before, after, hsplit, hbefore.bound ⟨List.nodup_nil, rfl⟩, hbefore.slots, fun l hl => ?_⟩
  exact hasLine_ofTask (hafter.lines.subset hl)

theorem initialSlots_eq_none (h : ∀ x ∈ k.shared, x.slot ≠ slot) :
    (initialSlots k)[slot]? = none := by
  cases hs : (initialSlots k)[slot]? with
  | none => rfl
  | some x =>
    obtain ⟨y, hy, hslot, -⟩ := shared_of_initialSlots hs
    exact absurd hslot (h y hy)

theorem usesWords (hn : (k.shared.map SharedSlot.slot).Nodup) {x : SharedSlot} (hx : x ∈ k.shared)
    (hv : Visited k settings index task (.op id o) e)
    (ho : slotPart? (taskTarget k index task) e o = some (x.slot, is, n)) :
    UsesWords k index task id o x.slot is e := by
  obtain ⟨before, after, -, hbound, hslots, -⟩ := hv.split
  have hentry : e.slots[x.slot]? = some (.shared x.offset x.ty) := by
    rw [hslots]
    exact getElem?_foldl_of_some (initialSlots_of_mem hn hx)
  exact ⟨x, hx, rfl, writtenAt_shared hbound ho (localAccess_slotIndex hentry is)⟩

theorem hasLine_slotLine (hids : (task.statements.map Stmt.id).Nodup)
    (hown : ∀ x ∈ k.shared, x.slot ≠ slot) (hmade : .op slot (.alloca ty hint) ∈ task.statements) :
    ∃ depth, HasLine (ofTask k settings index task).text (indentation depth ++ slotLine slot ty hint) := by
  obtain ⟨b, hb, e, hv⟩ := exists_visits_task (taskTarget k index task) settings task _ hmade
  have hvisited : Visited k settings index task (.op slot (.alloca ty hint)) e := ⟨b, hb, hv⟩
  obtain ⟨before, after, hsplit, -, hslots, hlines⟩ := hvisited.split
  -- no statement before has the id, so the slot has not been entered
  have hnew : e.slots.contains slot = false := by
    have hbefore : slot ∉ before.map Stmt.id := by
      rw [hsplit, List.append_assoc, List.map_append, List.nodup_append] at hids
      exact fun hi => hids.2.2 slot hi slot (List.mem_cons_self ..) rfl
    rw [Std.HashMap.contains_eq_isSome_getElem?, hslots, getElem?_foldl_of_not_mem hbefore, initialSlots_eq_none hown]
    rfl
  refine ⟨e.depth, hlines _ ?_⟩
  rw [emitStmt, emitOp_alloca, if_neg (by rw [hnew]; decide)]
  show _ ∈ (line (slotLine slot ty hint) (taskTarget k index task) e).2.lines.toList
  rw [lines_line]
  exact List.mem_append_right _ (List.mem_singleton_self _)

theorem usesVariable (hids : (task.statements.map Stmt.id).Nodup)
    (hown : ∀ x ∈ k.shared, x.slot ≠ slot) (hv : Visited k settings index task (.op id o) e)
    (ho : slotPart? (taskTarget k index task) e o = some (slot, is, n))
    (hmade : task.Contains (.op slot (.alloca ty hint))) :
    UsesVariable k settings index task id o slot is e := by
  refine ⟨hown, ty, hint, hmade, hasLine_slotLine hids hown (Task.contains_iff.1 hmade),
    fun before after hsplit hmem => ?_⟩
  obtain ⟨before', after', hsplit', -, hslots, -⟩ := hv.split
  -- the statement stands at one place only
  have hbefore : before = before' := by
    have honce := hids.of_map Stmt.id
    rw [hsplit, List.nodup_append, List.nodup_cons] at honce
    obtain ⟨-, ⟨hafter, -⟩, hapart⟩ := honce
    have hnot : Stmt.op id o ∉ before := fun hmem => hapart _ hmem _ (List.mem_cons_self ..) rfl
    rw [hsplit', List.append_assoc] at hsplit
    exact ((List.append_cons_inj_of_notMem hnot hafter).1 hsplit.symm).1
  subst hbefore
  have hnodup : (before.map Stmt.id).Nodup := by
    rw [hsplit, List.map_append, List.nodup_append] at hids
    exact hids.1
  have hentry := getElem?_foldl_of_mem (initialSlots_eq_none hown) hnodup hmem
  rw [← hslots] at hentry
  have hthrough := through_variableAccess (varName slot hint) ty
    (is.map fun i => (indexText i (taskTarget k index task) e).1)
  have heq := localAccess_variableAccess hentry (taskTarget k index task) is
  exact ⟨_, hthrough, heq, writtenThrough hthrough id ho heq⟩

end Task

/-! ## 2. Sharing -/

structure SlotsShared (k : Kernel) (settings : CompilerSettings) : Prop where
  /-- A slot is shared exactly if one task makes it and another goes to it. -/
  crossing : ∀ slot, (∃ x ∈ k.shareSlots.shared, x.slot = slot) ↔ Crosses k slot
  typed : ∀ x ∈ k.shareSlots.shared, ∃ t ∈ k.tasks, ∃ hint, t.Contains (.op x.slot (.alloca x.ty hint))
  written : ∀ (index : Nat) (task : Task), k.tasks[index]? = some task → ∀ s, task.Contains s →
    ∃ e, Visited k.shareSlots settings index task s e
      ∧ ∀ l ∈ (emitStmt s (taskTarget k.shareSlots index task) e).2.lines.toList,
        HasLine (ofTask k.shareSlots settings index task).text l
  /-- A statement that goes to a slot goes to words of the buffer, or to a slot that the shader of
  its task declares. -/
  reached : ∀ (index : Nat) (task : Task), k.tasks[index]? = some task →
    ∀ id o slot, Accesses slot o → ∀ e, Visited k.shareSlots settings index task (.op id o) e →
    ∃ is n, slotPart? (taskTarget k.shareSlots index task) e o = some (slot, is, n)
      ∧ (UsesWords k.shareSlots index task id o slot is e ∨
        UsesVariable k.shareSlots settings index task id o slot is e)
  /-- The words of shared slots follow each other in the order of the slots, from the first word of
  the buffer to its last. -/
  sorted : k.shareSlots.shared.Pairwise fun x y => x.slot < y.slot
  tiles : Tiles 0 k.shareSlots.shared k.shareSlots.sharedWords
  disjoint : k.shareSlots.shared.Pairwise fun x y => Disjoint x.words y.words
  covered : ∀ w, (∃ x ∈ k.shareSlots.shared, w ∈ x.words) ↔ w < k.shareSlots.sharedWords

theorem exists_slotPart (t : Target) (e : Emitter) (h : Accesses slot o) :
    ∃ is n, slotPart? t e o = some (slot, is, n) := by
  cases h with
  | load is ty | store is value | atomic is kind value ty => exact ⟨is, _, rfl⟩

/-- Of any kernel with distinct statements whose slots are all made somewhere. -/
theorem slotsShared (k : Kernel) (hids : (k.statements.map Stmt.id).Nodup) (hmade : k.SlotsMade)
    (settings : CompilerSettings) : SlotsShared k settings where
  crossing _ := exists_shared_iff
  typed _ := exists_alloca_of_shared
  written index task _ s hs := by
    obtain ⟨b, hb, e, hv⟩ := exists_visits_task (taskTarget k.shareSlots index task) settings task s
      (Task.contains_iff.1 hs)
    have hvisited : Visited k.shareSlots settings index task s e := ⟨b, hb, hv⟩
    obtain ⟨-, -, -, -, -, hlines⟩ := hvisited.split
    exact ⟨e, hvisited, hlines⟩
  reached index task ht id o slot haccess e hv := by
    obtain ⟨is, n, hpart⟩ := exists_slotPart (taskTarget k.shareSlots index task) e haccess
    refine ⟨is, n, hpart, ?_⟩
    by_cases hshared : ∃ x ∈ k.shareSlots.shared, x.slot = slot
    · obtain ⟨x, hx, rfl⟩ := hshared
      have hnodup : (k.shareSlots.shared.map SharedSlot.slot).Nodup :=
        List.pairwise_map.2 ((shared_sorted hids).imp fun hlt => Nat.ne_of_lt hlt)
      exact .inl (usesWords hnodup hx hv hpart)
    · have hown : ∀ x ∈ k.shareSlots.shared, x.slot ≠ slot := fun x hx heq => hshared ⟨x, hx, heq⟩
      -- the statement is one of the task, so the task makes the slot itself
      have hcontains : task.Contains (.op id o) := by
        obtain ⟨before, after, hsplit, -⟩ := hv.split
        rw [Task.contains_iff, hsplit]
        exact List.mem_append_left _ (List.mem_append_right _ (List.mem_singleton_self _))
      obtain ⟨ty, hint, halloca⟩ := hmade.own ht hcontains haccess hown
      exact .inr (usesVariable (nodup_task hids (List.mem_of_getElem? ht)) hown hv hpart halloca)
  sorted := shared_sorted hids
  tiles := tiles_shared k
  disjoint := (tiles_shared k).disjoint
  covered w := by
    rw [(tiles_shared k).mem_words_iff]
    exact and_iff_right (Nat.zero_le w)

/-- Slots that are made inside statements and used in the bounds and the body of a loop: a matrix, a
vector and a number that go to the second task, and one of each task that does not. -/
def relayKernel : Kernel where
  name := "relay"
  params := []
  ret := none
  tasks :=
    [{ body :=
         [.op 9 (.alloca .i32 "last"),
          .ifElse 1 (.int 1) [.op 5 (.alloca (.matrix .two .three) "m"),
            .op 2 (.localStore 5 [.int 1] (.int 0))] [.op 4 (.alloca (.vector .f32 .four) "v")],
          .op 0 (.alloca .i32 "own"),
          .op 6 (.localStore 9 [] (.int 8)), .op 7 (.localStore 0 [] (.int 3))] },
     { loop := some { prologue := [.op 10 (.localLoad 9 [] .i32)], first := .int 0,
                      last := .stmt 10, index := 11, hint := "i", threads := none }
       body :=
         [.op 12 (.alloca .f32 "x"),
          .rangeFor 13 (.int 0) (.int 4)
            [.op 14 (.localLoad 4 [.stmt 13] .f32), .op 15 (.localStore 12 [] (.stmt 14)),
             .op 16 (.atomic (.local 5 [.int 1, .int 2]) .add (.stmt 14) .f32)] "j"] }]
  fields := []
  textures := []

theorem slotsShared_relay :
    (relayKernel.statements.map Stmt.id).Nodup ∧ relayKernel.SlotsMade ∧ SlotsShared relayKernel {}
      ∧ relayKernel.shareSlots.shared
        = [⟨4, 0, .vector .f32 .four⟩, ⟨5, 4, .matrix .two .three⟩, ⟨9, 10, .i32⟩] := by
  have hids : (relayKernel.statements.map Stmt.id).Nodup := by decide
  have hmade : relayKernel.SlotsMade := by decide
  exact ⟨hids, hmade, slotsShared relayKernel hids hmade {}, by decide⟩

end ArrayKernel.Shader
