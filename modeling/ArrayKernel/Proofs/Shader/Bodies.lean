import Mathlib.Data.List.Nodup
import ArrayKernel.Proofs.IR.Sharing
import ArrayKernel.Proofs.Shader.Traversal

/-!
# The body of a shader

A task is written from a state that holds the shared slots of the kernel and nothing else.
`wrote_task` carries what is known of blocks over to tasks.
-/

namespace ArrayKernel.Shader

open IR Text List Stmt

/-! ## 1. States of a task -/

def taskTarget (k : Kernel) (index : Nat) (task : Task) : Target :=
  { kernel := k, index, usage := .ofTask task }

def seeded (t : Target) (task : Task) : Emitter :=
  (emitSeed task t { slots := initialSlots t.kernel }).2

/-- The stride of a parallel loop: the invocations of the whole dispatch. -/
def strideOf (settings : CompilerSettings) (loop : ParallelLoop) : UInt32 :=
  UInt32.ofNat (workgroupCount (loop.threads.getD settings.dynamicThreads) settings.workgroupSize
    * settings.workgroupSize)

def strideHeader (id : StmtId) (hint first last : String) (stride : UInt32) : String :=
  let name := varName id hint
  s!"for (var {name}: i32 = {first} + i32(gid.x); {name} < {last}; {name} = {name} + {stride.toNat}i) \x7b"

/-- The state in which the body of a parallel loop is written, from the state after the statements
of its bounds. -/
def insideParallel (settings : CompilerSettings) (loop : ParallelLoop) (t : Target) (e : Emitter) :
    Emitter :=
  let named := (declareIndex loop.index loop.hint t e).2
  opened (strideHeader loop.index loop.hint (operand loop.first t named).1
    (operand loop.last t named).1 (strideOf settings loop)) t named

/-- The blocks of a task, each with the state in which it is written. -/
def taskBlocks (t : Target) (settings : CompilerSettings) (task : Task) :
    List (List Stmt × Emitter) :=
  match task.loop with
  | none => [(task.body, seeded t task)]
  | some loop =>
    [(loop.prologue, seeded t task),
     (task.body, insideParallel settings loop t (emitBlock loop.prologue t (seeded t task)).2)]

def finalState (t : Target) (settings : CompilerSettings) (task : Task) : Emitter :=
  match task.loop with
  | none => (emitBlock task.body t (seeded t task)).2
  | some loop =>
    closed t (emitBlock task.body t (insideParallel settings loop t (emitBlock loop.prologue t (seeded t task)).2)).2

theorem emitParallel_state (settings : CompilerSettings) (loop : ParallelLoop) (body : List Stmt)
    (t : Target) (e : Emitter) : (emitParallel loop body (strideOf settings loop) t e).2
      = closed t (emitBlock body t (insideParallel settings loop t (emitBlock loop.prologue t e).2)).2 := by
  simp only [emitParallel, run_bind, operand_state]
  rfl

theorem ofTask_finalState (k : Kernel) (settings : CompilerSettings) (index : Nat) (task : Task) :
    (ofTask k settings index task).text = assemble (taskTarget k index task) task.isParallel
        (ofTask k settings index task).workgroupSize (finalState (taskTarget k index task) settings task)
      ∧ (ofTask k settings index task).bindings = (finalState (taskTarget k index task) settings task).bindings := by
  obtain ⟨loop, body⟩ := task
  cases loop with
  | none => exact ⟨rfl, rfl⟩
  | some loop =>
    have hstate := emitParallel_state settings loop body (taskTarget k index { loop := some loop, body })
      (seeded (taskTarget k index { loop := some loop, body }) { loop := some loop, body })
    refine ⟨congrArg (assemble _ _ _) hstate, ?_⟩
    exact .trans (b := (emitParallel loop body (strideOf settings loop) _ _).2.bindings) rfl
      (congrArg Emitter.bindings hstate)

theorem exists_visits_task (t : Target) (settings : CompilerSettings) (task : Task) :
    ∀ s ∈ task.statements, ∃ b ∈ taskBlocks t settings task, ∃ e, Visits t b.1 b.2 s e := by
  intro s hs
  obtain ⟨loop, body⟩ := task
  cases loop with
  | none => exact ⟨_, mem_singleton_self _, exists_visits_block body hs⟩
  | some loop =>
    rcases mem_append.1 hs with hs | hs
    · exact ⟨_, mem_cons_self .., exists_visits_block loop.prologue hs⟩
    · exact ⟨_, mem_cons_of_mem _ (mem_singleton_self _), exists_visits_block body hs⟩

/-! ## 2. The first state -/

variable {t : Target} {task : Task} {ids : List StmtId} {k : Kernel}

theorem shared_of_initialSlots {i : StmtId} {s : Slot} (h : (initialSlots k)[i]? = some s) :
    ∃ x ∈ k.shared, x.slot = i ∧ s = .shared x.offset x.ty := by
  have hfold : ∀ (xs : List SharedSlot) (m : Std.HashMap StmtId Slot),
      (xs.foldl (fun m s => m.insert s.slot (.shared s.offset s.ty)) m)[i]? = some s →
      m[i]? = some s ∨ ∃ x ∈ xs, x.slot = i ∧ s = .shared x.offset x.ty := by
    intro xs
    induction xs with
    | nil => exact fun m h => .inl h
    | cons x xs ih =>
      intro m h
      rcases ih _ h with h | ⟨y, hy, hi, hs⟩
      · rw [Std.HashMap.getElem?_insert] at h
        split at h
        · rename_i hi
          cases h
          exact .inr ⟨x, mem_cons_self .., by simpa using hi, rfl⟩
        · exact .inl h
      · exact .inr ⟨y, mem_cons_of_mem _ hy, hi, hs⟩
  rcases hfold _ _ h with h | h
  · simp at h
  · exact h

theorem initialSlots_of_mem (hn : (k.shared.map SharedSlot.slot).Nodup) {x : SharedSlot}
    (hx : x ∈ k.shared) : (initialSlots k)[x.slot]? = some (.shared x.offset x.ty) := by
  have hkeep : ∀ (xs : List SharedSlot) (m : Std.HashMap StmtId Slot) (i : StmtId), i ∉ xs.map SharedSlot.slot →
      (xs.foldl (fun m s => m.insert s.slot (.shared s.offset s.ty)) m)[i]? = m[i]? := by
    intro xs
    induction xs with
    | nil => exact fun m i _ => rfl
    | cons y xs ih =>
      intro m i hi
      rw [foldl_cons, ih _ i fun h => hi (mem_cons_of_mem _ h), Std.HashMap.getElem?_insert, if_neg]
      simp only [beq_iff_eq]
      exact fun h => hi (h ▸ mem_cons_self ..)
  have hfold : ∀ (xs : List SharedSlot) (m : Std.HashMap StmtId Slot), (xs.map SharedSlot.slot).Nodup → x ∈ xs →
      (xs.foldl (fun m s => m.insert s.slot (.shared s.offset s.ty)) m)[x.slot]? = some (.shared x.offset x.ty) := by
    intro xs
    induction xs with
    | nil => nofun
    | cons y xs ih =>
      intro m hn hmem
      obtain ⟨hnew, hn⟩ := nodup_cons.1 hn
      rcases mem_cons.1 hmem with rfl | hmem
      · rw [foldl_cons, hkeep xs _ _ hnew, Std.HashMap.getElem?_insert_self]
      · exact ih _ hn hmem
  exact hfold _ _ hn hx

theorem ready_start (hn : (t.kernel.shared.map SharedSlot.slot).Nodup) (hids : ids.Nodup) :
    Ready t [] ids { slots := initialSlots t.kernel } where
  bound := ⟨nodup_nil, rfl⟩
  found := forall_mem_nil _
  shared _ hx := initialSlots_of_mem hn hx
  fresh _ _ _ hs := shared_of_initialSlots hs
  nodup := hids
  apart := forall_mem_nil _

def Draws (task : Task) : Prop := ∃ ty, Op.random ty ∈ task.ops

theorem any_random_iff :
    (task.ops.any fun | .random _ => true | _ => false) = true ↔ Draws task := by
  rw [any_eq_true]
  constructor
  · rintro ⟨o, ho, h⟩
    cases o with
    | random ty => exact ⟨ty, ho⟩
    | _ => cases h
  · rintro ⟨ty, ho⟩
    exact ⟨_, ho, rfl⟩

theorem adds_seed (t : Target) (task : Task) :
    Adds t Never Never (fun kind => kind = .args ∧ Draws task) { slots := initialSlots t.kernel } (seeded t task) := by
  show Adds t _ _ _ _ ((if (task.ops.any fun | .random _ => true | _ => false) = true then _ else pure () : Emit Unit) t _).2
  by_cases h : Draws task
  · rw [if_pos (any_random_iff.2 h)]
    have hrandom : Adds t Never Never Never { slots := initialSlots t.kernel }
        { slots := initialSlots t.kernel, random := true } := .same rfl rfl rfl rfl rfl
    have hargs := hrandom.silently (adds_resource t _ .args)
    refine (hargs.congr fun kind => ⟨fun hk => ⟨hk, h⟩, And.left⟩).before
      (adds_line ⟨?_, ';', getLast?_append rfl, by decide⟩)
    have hbegin : Begins "rng_seed(gid.x, bitcast<u32>(" := ⟨'r', 'n', _, rfl, by decide, by decide, rfl⟩
    exact (((((hbegin.append _).append _).append _).append _).append _).append _
  · rw [if_neg (mt any_random_iff.1 h)]
    exact (AddsFrom.refl _).congr fun kind => ⟨False.elim, fun hk => h hk.2⟩

theorem lines_seeded :
    Draws task ∧ (seeded t task).lines.toList
        = [indentation 1 ++ s!"rng_seed(gid.x, bitcast<u32>(args[{t.kernel.paramWords}]) ^ {t.index}u);"] ∨
      ¬ Draws task ∧ (seeded t task).lines.toList = [] := by
  by_cases h : Draws task
  · refine .inl ⟨h, ?_⟩
    show (((if (task.ops.any fun | .random _ => true | _ => false) = true then _ else pure () : Emit Unit) t _).2).lines.toList = _
    rw [if_pos (any_random_iff.2 h)]
    rfl
  · refine .inr ⟨h, ?_⟩
    show (((if (task.ops.any fun | .random _ => true | _ => false) = true then _ else pure () : Emit Unit) t _).2).lines.toList = _
    rw [if_neg (mt any_random_iff.1 h)]
    rfl

/-! ## 3. Tasks -/

/-- The resources that a task mentions: those of its statements, and the arguments for the seed of
random numbers. -/
def TaskMentions (k : Kernel) (task : Task) (kind : ResourceKind) : Prop :=
  (kind = .args ∧ Draws task) ∨ MentionedBy k task.statements task.statements kind

structure TaskWrote (t : Target) (settings : CompilerSettings) (c : Check) (task : Task) :
    Prop where
  adds : Adds t (· ∈ task.ids) (fun w => ∃ i ∈ task.ids, OfId i w) (TaskMentions t.kernel task)
    { slots := initialSlots t.kernel } (finalState t settings task)
  visits : ∀ b ∈ taskBlocks t settings task, ∀ s e, Visits t b.1 b.2 s e → Placed t task.statements c s e
  bounds : ∀ loop, task.loop = some loop →
    Ready t (defsOf loop.prologue) [loop.index] (emitBlock loop.prologue t (seeded t task)).2

theorem unambiguous_statements (h : task.ids.Nodup) : Unambiguous task.statements := by
  intro i o o' ho ho'
  have hinj := inj_on_of_nodup_map (h.sublist task.map_id_sublist) ho ho' rfl
  exact (op.inj hinj).2

theorem startsDeclaration_strideHeader (id : StmtId) (hint first last : String) (stride : UInt32) :
    StartsDeclaration (strideHeader id hint first last stride) (varName id hint)
      ∧ (strideHeader id hint first last stride).toList.getLast? = some '\x7b' := by
  let name := varName id hint
  refine ⟨?_, getLast?_append rfl⟩
  have h := startsDeclaration_loop name (first ++ " + i32(gid.x); " ++ name ++ " < " ++ last ++ "; "
    ++ name ++ " = " ++ name ++ " + " ++ toString stride.toNat ++ "i) \x7b")
  simp only [← String.append_assoc] at h
  exact h

section Task

variable {c : Check} {settings : CompilerSettings}
  (hn : (t.kernel.shared.map SharedSlot.slot).Nodup) {body : List Stmt}
include hn

theorem ready_seeded (task : Task) (hids : ids.Nodup) : Ready t [] ids (seeded t task) :=
  (ready_start hn hids).later (adds_seed t task) (forall_mem_nil _) (fun _ hi => ⟨hi, not_false⟩) hids

theorem wrote_serial (hids : (idsOf body).Nodup) (hc : EnsuresReach t.kernel (flattenAll body) c)
    (h : c.block [] body) : TaskWrote t settings c { body } := by
  have hone : Unambiguous (Task.mk none body).statements := unambiguous_statements hids
  have hw := wrote_block hone hc body h (ready_seeded hn { body } hids) (fun _ _ h => by cases h) fun _ _ => id
  refine ⟨?_, ?_, nofun⟩
  · refine ((adds_seed t { body }).trans hw.adds fun _ => False.elim).imp ?_ ?_ fun kind => Iff.rfl
    · exact fun _ => (·.resolve_left not_false)
    · exact fun _ => (·.resolve_left not_false)
  · intro b hb s e hv
    cases mem_singleton.1 hb
    exact hw.visits s e hv

theorem wrote_parallel {loop : ParallelLoop} (hids : (Task.mk (some loop) body).ids.Nodup)
    (hc : EnsuresReach t.kernel (Task.mk (some loop) body).statements c)
    (h : c.task ⟨some loop, body⟩) : TaskWrote t settings c ⟨some loop, body⟩ := by
  let task : Task := ⟨some loop, body⟩
  have hone : Unambiguous task.statements := unambiguous_statements hids
  obtain ⟨hpro, -, hbody⟩ := h
  -- the ids of the bounds, of the index and of the body are apart
  have hflat : (idsOf loop.prologue ++ ([loop.index] ++ idsOf body)).Nodup := by
    rw [← append_assoc]
    exact hids
  obtain ⟨hids1, hids2, hdisj⟩ := nodup_append.1 hflat
  obtain ⟨hindex, hids3⟩ := nodup_cons.1 hids2
  have hstart := ready_seeded hn task hflat
  have hin : OpsIn task.statements loop.prologue := fun i o ho => mem_append_left _ ho
  have hw := wrote_block hone hc loop.prologue hpro
    (hstart.later (.refl _) (forall_mem_nil _) (fun i hi => ⟨mem_append_left _ hi, not_false⟩) hids1)
    (fun _ _ h => by cases h) hin
  have hafter : Ready t (defsOf loop.prologue) (loop.index :: idsOf body)
      (emitBlock loop.prologue t (seeded t task)).2 := by
    refine (hstart.later hw.adds (forall_mem_nil _) ?_ hids2).extend ?_
    · exact fun i hi => ⟨mem_append_right _ hi, fun h => hdisj i h i hi rfl⟩
    · exact fun p hp => ⟨hw.found p hp, fun h => hdisj _ (mem_idsOf_of_mem_defsOf hp) _ h rfl⟩
  obtain ⟨hheader, hlast⟩ := startsDeclaration_strideHeader loop.index loop.hint
    (operand loop.first t (declareIndex loop.index loop.hint t (emitBlock loop.prologue t (seeded t task)).2).2).1
    (operand loop.last t (declareIndex loop.index loop.hint t (emitBlock loop.prologue t (seeded t task)).2).2).1
    (strideOf settings loop)
  obtain ⟨hadds, hfound⟩ := addsFrom_loop hheader hlast
  have hw' := wrote_block hone hc body hbody (hafter.intoLoop hadds hfound)
    (hin.within.index loop.index) fun i o ho => mem_append_right _ ho
  refine ⟨?_, ?_, ?_⟩
  · have hloop := (hadds.trans (hw'.adds.within 1) ?_).before addsFrom_closed
    refine ((adds_seed t task).trans (hw.adds.trans hloop ?_) fun _ => False.elim).imp ?_ ?_ ?_
    · rintro w ⟨i, hi, hof⟩ (rfl | ⟨j, hj, hof'⟩)
      · exact hdisj i hi _ (mem_cons_self ..) (hof.id_eq ofId_varName)
      · exact hdisj i hi j (mem_cons_of_mem _ hj) (hof.id_eq hof')
    · rintro i (h | h | h | h)
      · exact h.elim
      · simp [Task.ids, h]
      · simp [Task.ids, h]
      · simp [Task.ids, h]
    · rintro w (h | ⟨i, hi, hof⟩ | rfl | ⟨i, hi, hof⟩)
      · exact h.elim
      · exact ⟨i, by simp [Task.ids, hi], hof⟩
      · exact ⟨loop.index, by simp [Task.ids], ofId_varName⟩
      · exact ⟨i, by simp [Task.ids, hi], hof⟩
    · intro kind
      simp [TaskMentions, MentionedBy, Task.statements, task, or_and_right, exists_or]
    · rintro w rfl ⟨i, hi, hof⟩
      exact hindex (ofId_varName.id_eq hof ▸ hi)
  · intro b hb s e hv
    rcases mem_cons.1 hb with rfl | hb
    · exact hw.visits s e hv
    · cases mem_singleton.1 hb
      exact hw'.visits s e hv
  · rintro _ ⟨⟩
    exact hafter.later (.refl _) (fun _ _ => not_false) (fun i hi => ⟨by simp_all, not_false⟩) (pairwise_singleton _ _)

theorem wrote_task (hids : task.ids.Nodup) (hc : EnsuresReach t.kernel task.statements c)
    (h : c.task task) : TaskWrote t settings c task := by
  obtain ⟨loop, body⟩ := task
  cases loop with
  | none => exact wrote_serial hn hids hc h
  | some loop => exact wrote_parallel hn hids hc h

end Task

end ArrayKernel.Shader
