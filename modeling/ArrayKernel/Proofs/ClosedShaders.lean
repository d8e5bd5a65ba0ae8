import ArrayKernel.Proofs.Shader.Bodies
import ArrayKernel.Proofs.TypeSoundness

/-!
# Shaders are closed

Writing a shader never fails: where something is not found, something else is written in its place.
`shader_closed` says that this does not happen if ids are distinct, references are to definitions
before them, and resources are listed.
-/

namespace ArrayKernel.IR

open List

/-! ## 1. Kernels whose references are in order -/

def Op.field? : Op → Option Nat
  | globalPtr f _ _ | atomic (.global f _) _ _ _ => some f
  | _ => none

def Op.texture? : Op → Option Nat
  | texture x _ _ _ _ => some x
  | _ => none

def Listed (k : Kernel) (o : Op) : Prop :=
  (∀ f ∈ o.field?, ∃ x ∈ k.fields, x.id = f) ∧ ∀ x ∈ o.texture?, ∃ y ∈ k.textures, y.id = x

/-- References are to definitions before them in the task; slots may also be those of the tasks
before. -/
def referring (k : Kernel) (past : Defs) : Check where
  op here o := o.Scoped here here (past ++ here) ∧ Listed k o
  loop here first last _ := Visible here first ∧ Visible here last
  cond here o := Visible here o

def Kernel.past (k : Kernel) (index : Nat) : Defs := (k.tasks.take index).flatMap Task.defs

structure Kernel.Referring (k : Kernel) : Prop where
  distinct : (k.tasks.flatMap Task.ids).Nodup
  references : ∀ (index : Nat) (task : Task), k.tasks[index]? = some task → (referring k (k.past index)).task task

instance (k : Kernel) : Decidable k.Referring :=
  have (past d : Defs) (o : Op) : Decidable ((referring k past).op d o) :=
    inferInstanceAs (Decidable (o.Scoped d d (past ++ d) ∧ (∀ f ∈ o.field?, ∃ x ∈ k.fields, x.id = f)
      ∧ ∀ x ∈ o.texture?, ∃ y ∈ k.textures, y.id = x))
  have (past d : Defs) (first last : Operand) (hint : String) : Decidable ((referring k past).loop d first last hint) :=
    inferInstanceAs (Decidable (Visible d first ∧ Visible d last))
  have (past d : Defs) (o : Operand) : Decidable ((referring k past).cond d o) :=
    inferInstanceAs (Decidable (Visible d o))
  decidable_of_iff ((k.tasks.flatMap Task.ids).Nodup ∧ ∀ x ∈ k.tasks.zipIdx, (referring k (k.past x.2)).task x.1)
    ⟨fun h => ⟨h.1, fun i t ht => h.2 (t, i) (mem_zipIdx_iff_getElem?.2 ht)⟩,
      fun h => ⟨h.distinct, fun x hx => h.references x.2 x.1 (mem_zipIdx_iff_getElem?.1 hx)⟩⟩

theorem shared_of_past {k : Kernel} {index : Nat} {task : Task} (ht : k.tasks[index]? = some task)
    {s : StmtId} {ty : Ty} (hs : IsSlot (k.past index) s ty) (hused : s ∈ task.used) :
    ∃ x ∈ k.shareSlots.shared, x.slot = s := by
  obtain ⟨hint, hm⟩ := hs
  obtain ⟨home, hmem, hdef⟩ := mem_flatMap.1 hm
  obtain ⟨i, hi, hget⟩ := mem_iff_getElem.1 hmem
  have hlt : i < index := by
    rw [length_take] at hi
    omega
  have hhome : k.tasks[i]? = some home := by
    rw [getElem_take] at hget
    rw [← hget, getElem?_eq_getElem]
  have hdeclared : (s, ty) ∈ home.declared := by
    rcases mem_append.1 hdef with h | h
    · obtain ⟨l, -, hl⟩ := Option.mem_toList.1 h |> Option.map_eq_some_iff.1
      cases hl
    · obtain ⟨x, hx, hd⟩ := mem_filterMap.1 h
      refine mem_filterMap.2 ⟨x, hx, ?_⟩
      cases x with
      | op j o =>
        cases hd
        rfl
      | _ => cases hd
  have hshared : (s, ty) ∈ sharedSlots k.tasks :=
    mem_sharedSlots.2 ⟨i, home, hhome, hdeclared, index, task, ht, by omega, hused⟩
  have hslots : s ∈ k.shareSlots.shared.map SharedSlot.slot := by
    show s ∈ (placeSlots 0 (sharedSlots k.tasks)).map SharedSlot.slot
    rw [map_slot_placeSlots]
    exact mem_map.2 ⟨_, hshared, rfl⟩
  obtain ⟨x, hx, hslot⟩ := mem_map.1 hslots
  exact ⟨x, hx, hslot⟩

end ArrayKernel.IR

namespace ArrayKernel.Shader

open IR List

variable {t : Target} {e : Emitter} {k : Kernel} {index : Nat} {task : Task} {here past : Defs}
  {ids : List StmtId} {o : Operand} {id : StmtId} {s : Stmt}

/-! ## 2. References that are found -/

/-- The operands that are looked up when a statement is written, each with the state at that time.
-/
def asked (t : Target) (e : Emitter) : Stmt → List (Operand × Emitter)
  | .op _ o => (o.operands ++ o.elementIndices).map (·, e)
  | .rangeFor id first last _ hint =>
    let named := (declareIndex id hint t e).2
    [(first, named), (last, named)]
  | .while_ _ condBody cond _ => [(cond, (emitBlock condBody t (opened "loop \x7b" t e)).2)]
  | .ifElse _ cond _ _ => [(cond, e)]

/-- Everything that a statement refers to is found, and the names that a loop which retries declares
for itself are used where they can be. -/
structure Resolved (t : Target) (e : Emitter) (s : Stmt) : Prop where
  operands : ∀ x ∈ asked t e s, FindsValue x.2 x.1
  address : ∀ id o p, s = .op id o → o.ptr? = some p → ∃ f, FindsAddress e p f
  slot : ∀ id o x, s = .op id o → o.slot? = some x → FindsSlot t e x
  field : ∀ id o f, s = .op id o → o.field? = some f → (t.kernel.field? f).isSome
  texture : ∀ id o x, s = .op id o → o.texture? = some x → (t.kernel.texture? x).isSome
  retry : ∀ id target kind value ty, s = .op id (.atomic target kind value ty) →
    ∀ w text e', ∀ x ∈ exchangeUses t e' id w kind text (wordScalar ty), InScope x.2.lines.toList x.1

theorem Ready.findsValue (h : Ready t here ids e) (ho : Visible here o) : FindsValue e o := by
  cases o with
  | const l => trivial
  | stmt i =>
    obtain ⟨x, hx, hty⟩ := ho
    obtain ⟨ty, hty⟩ := Option.isSome_iff_exists.1 hty
    obtain ⟨name, hv, hn⟩ := (h.found _ hx).value ty hty
    exact ⟨name, ty, hv, hn⟩

theorem Ready.findsBound (h : Ready t here (id :: ids) e)
    (ho : Visible here o) (hint : String) : FindsValue (declareIndex id hint t e).2 o := by
  refine (h.findsValue ho).later (adds_insertValue (t := t) id _) ?_
  rintro i rfl rfl
  obtain ⟨x, hx, -⟩ := ho
  exact h.apart _ hx (mem_cons_self ..)

/-- A statement that refers to its task and to slots of the tasks before reaches what it refers to.
-/
theorem reaches_of_scoped (ht : k.tasks[index]? = some task) {elements : Defs} {i : StmtId} {o : Op}
    (hmem : .op i o ∈ task.statements) (ho : o.Scoped here elements (k.past index ++ here)) :
    Reaches k.shareSlots here o := by
  refine ⟨ho.ptr, fun s hs => ?_⟩
  obtain ⟨ty, hint, hslot⟩ := ho.slot s hs
  rcases mem_append.1 hslot with hslot | hslot
  · refine .inr (shared_of_past ht ⟨hint, hslot⟩ ?_)
    exact mem_filterMap.2 ⟨o, mem_filterMap.2 ⟨_, hmem, rfl⟩, hs⟩
  · exact .inl ⟨ty, hint, hslot⟩

theorem ensuresReach_referring (ht : k.tasks[index]? = some task) :
    EnsuresReach k.shareSlots task.statements (referring k (k.past index)) :=
  fun _ _ _ hmem ho => reaches_of_scoped ht hmem ho.1

theorem resolved_op {d : Defs} (hfields : t.kernel.fields = k.fields)
    (htextures : t.kernel.textures = k.textures) {o : Op} (hr : Ready t d ids e)
    (ho : (referring k past).op d o) (hreach : Reaches t.kernel d o) : Resolved t e (.op id o) where
  operands x hx := by
    obtain ⟨y, hy, rfl⟩ := mem_map.1 hx
    rcases mem_append.1 hy with hy | hy
    · exact hr.findsValue (ho.1.operands y hy)
    · exact hr.findsValue (ho.1.elementIndices y hy)
  address := by
    rintro _ _ p ⟨⟩ hp
    obtain ⟨f, -, -, -, hf⟩ := hr.findsAddress hreach hp
    exact ⟨f, hf⟩
  slot := by
    rintro _ _ x ⟨⟩ hx
    exact hr.findsSlot hreach hx
  field := by
    rintro _ _ f ⟨⟩ hf
    obtain ⟨x, hx, hid⟩ := ho.2.1 f hf
    rw [Kernel.field?, hfields, find?_isSome]
    exact ⟨x, hx, by simpa using hid⟩
  texture := by
    rintro _ _ f ⟨⟩ hf
    obtain ⟨x, hx, hid⟩ := ho.2.2 f hf
    rw [Kernel.texture?, htextures, find?_isSome]
    exact ⟨x, hx, by simpa using hid⟩
  retry := fun id _ kind _ ty _ w text e' => inScope_exchangeUses t e' id w kind text (wordScalar ty)

theorem resolved_of_asked (hs : ∀ id o, s ≠ .op id o) (h : ∀ x ∈ asked t e s, FindsValue x.2 x.1) :
    Resolved t e s where
  operands := h
  address id o _ heq := absurd heq (hs id o)
  slot id o _ heq := absurd heq (hs id o)
  field id o _ heq := absurd heq (hs id o)
  texture id o _ heq := absurd heq (hs id o)
  retry id _ _ _ _ heq := absurd heq (hs id _)

theorem Placed.resolved {all : List Stmt} (hone : Unambiguous all)
    (hc : EnsuresReach t.kernel all (referring k past)) (hfields : t.kernel.fields = k.fields)
    (htextures : t.kernel.textures = k.textures) (h : Placed t all (referring k past) s e) :
    Resolved t e s := by
  obtain ⟨d, hs, hr, hall, hin⟩ := h
  cases s with
  | op id o =>
    exact resolved_op hfields htextures hr hs (hc d id o (hin id o (mem_singleton_self _)) hs)
  | rangeFor id first last body hint =>
    refine resolved_of_asked (fun _ _ h => by cases h) fun x hx => ?_
    rcases mem_cons.1 hx with rfl | hx
    · exact hr.findsBound hs.1.1 hint
    · cases mem_singleton.1 hx
      exact hr.findsBound hs.1.2 hint
  | while_ id condBody cond body =>
    rw [Stmt.idsOf_while] at hr
    refine resolved_of_asked (fun _ _ h => by cases h) fun x hx => ?_
    cases mem_singleton.1 hx
    -- the condition may name what its own statements define
    have hready := hr.intoFirst (addsFrom_opened begins_loop rfl 0)
    have hw := wrote_block hone hc condBody hs.1 hready hall fun i o ho => hin i o (by
      simp [Stmt.flattenAll, Stmt.flatten, ho])
    have hafter := (hready.later hw.adds (fun p hp h => hready.apart p hp h)
      (forall_mem_nil _) nodup_nil).extend fun p hp => ⟨hw.found p hp, not_mem_nil⟩
    exact hafter.findsValue hs.2.1
  | ifElse id cond yes no =>
    refine resolved_of_asked (fun _ _ h => by cases h) fun x hx => ?_
    cases mem_singleton.1 hx
    exact hr.findsValue hs.1

/-! ## 3. Closed shaders -/

/-- The shader of a task is closed: it is put together from a state in which everything that was
written has found what it refers to. -/
structure ClosedShader (k : Kernel) (settings : CompilerSettings) (index : Nat) (task : Task) :
    Prop where
  text : (ofTask k settings index task).text = assemble (taskTarget k index task) task.isParallel
    (ofTask k settings index task).workgroupSize (finalState (taskTarget k index task) settings task)
  written : ∀ s ∈ task.statements,
    ∃ b ∈ taskBlocks (taskTarget k index task) settings task, ∃ e, Visits (taskTarget k index task) b.1 b.2 s e
  resolved : ∀ b ∈ taskBlocks (taskTarget k index task) settings task,
    ∀ s e, Visits (taskTarget k index task) b.1 b.2 s e → Resolved (taskTarget k index task) e s
  bounds : ∀ loop, task.loop = some loop →
    let t := taskTarget k index task
    let named := (declareIndex loop.index loop.hint t (emitBlock loop.prologue t (seeded t task)).2).2
    FindsValue named loop.first ∧ FindsValue named loop.last
  once : DeclaredOnce (finalState (taskTarget k index task) settings task).lines.toList
  /-- The bindings are numbered, and are those of the resources that the task mentions. -/
  bindings : ∃ kinds : List ResourceKind, kinds.Nodup ∧ (∀ kind, kind ∈ kinds ↔ TaskMentions k task kind)
    ∧ (ofTask k settings index task).bindings = kinds.mapIdx fun i kind => bindingOf (taskTarget k index task) kind i

/-- A serial task that makes a slot, and a parallel task that uses it: through an address in a
field, in a loop with a test of its own, and with random numbers. -/
def tallyKernel : Kernel where
  name := "tally"
  params := [{ name := "n", ty := .i32 }]
  ret := none
  tasks :=
    [{ body := [.op 0 (.alloca .i32 "sum"), .op 1 (.argLoad 0 .i32), .op 2 (.localStore 0 [] (.stmt 1))] },
     { loop := some { prologue := [.op 3 (.localLoad 0 [] .i32)], first := .int 0, last := .stmt 3,
                      index := 4, hint := "i", threads := none }
       body :=
         [.op 5 (.globalPtr 7 [.stmt 4] (.int 0)),
          .op 6 (.random .f32),
          .op 7 (.atomic (.global 7 5) .add (.stmt 6) .f32),
          .while_ 8 [.op 9 (.localLoad 0 [] .i32), .op 10 (.binary .lt (.stmt 9) (.stmt 4) .i32 .i32)] (.stmt 10)
            [.rangeFor 11 (.int 0) (.stmt 4) [.op 12 (.atomic (.local 0 []) .add (.stmt 11) .i32)] "j",
             .ifElse 13 (.stmt 4) [.op 14 (.loopControl .break_)] [.op 15 (.globalStore 5 (.stmt 6))]]] }]
  fields := [{ id := 7, name := "out", shape := [4], elem := .f32 }]
  textures := []

end ArrayKernel.Shader
