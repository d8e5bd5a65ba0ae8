import ArrayKernel.Proofs.Session.Growth
import ArrayKernel.Proofs.Session.Pipelines
import ArrayKernel.Proofs.Shader.Indices

/-!
# Launches do not fail

A buffer is bound if some statement mentions it, and taken if the kernel has words for it, and these
are the same. So a kernel of a session can be launched with all arguments that can be encoded
(`launch_never_fails`).
-/

namespace ArrayKernel.Lowering

open IR Surface Shader List

variable {r : Routine} {scope : Scope} {templates : List (String × Value)}
  {settings : CompilerSettings} {k : Kernel} {rs : Resources} {index : Nat} {task : Task}

/-! ## 1. What shaders bind -/

/-- The fields that a statement names are among the given ones, and the textures are those of the
host. -/
def supplied (r : Resources) (fields : List FieldInfo) : Check where
  op _ o := (∀ f ∈ o.field?, ∃ x ∈ fields, x.id = f) ∧ ∀ x ∈ o.texture?, ∃ t, r.texture t ∧ t.id = x
  loop _ _ _ _ := True
  cond _ _ := True

theorem discipline_gives_supplied {fields : List FieldInfo} {past D : Defs} {ret : Option Ty} :
    (discipline (typedHost rs) fields past ret).Gives (supplied rs fields) D where
  op _ ho := by
    rename_i o _
    have htracked := ho.tracked
    have hsourced := ho.sourced
    refine ⟨fun f hf => ?_, fun x hx => ?_⟩
    · cases o with
      | globalPtr f is offset =>
        cases hf
        exact htracked
      | atomic target kind v ty =>
        cases target with
        | global f p =>
          cases hf
          exact htracked.1
        | «local» s is => cases hf
      | _ => cases hf
    · cases o with
      | texture id op coords v ty =>
        cases hx
        exact hsourced
      | _ => cases hx
  loop _ _ := trivial
  cond _ _ := trivial

/-- The fields of a kernel are those of the host, and its statements name no others. -/
theorem supplied_lower (hg : HostGives (WellFormed rs) scope templates)
    (h : lower r scope templates settings = .ok k) : (∀ f ∈ k.fields, rs.field f) ∧
    ∀ t ∈ k.tasks, ∀ s ∈ t.statements, (supplied rs k.fields).holdsAt k.defs s := by
  obtain ⟨htasks, -, hfields⟩ := hg.tracked valueOk_typedHost (fun _ _ => trivial) h
  have hdefs : ∀ t ∈ k.tasks, t.defs ⊆ k.defs := fun t ht x hx => mem_flatMap.2 ⟨t, ht, hx⟩
  have hall := Check.Gives.tasks (fun _ _ => discipline_gives_supplied) (nil_subset _) hdefs htasks
  exact ⟨hfields, fun t ht => (hall t ht).1⟩

/-- There are words in every buffer of a launch that a task mentions, and the resources that it
mentions are those of the host. -/
structure Backed (rs : Resources) (k : Kernel) (task : Task) : Prop where
  field : ∀ id, TaskMentions k task (.field id) → ∃ f, k.field? id = some f ∧ rs.field f
  args : TaskMentions k task .args → 0 < k.argWords
  rets : TaskMentions k task .rets → 0 < k.retWords
  shared : TaskMentions k task .shared → 0 < k.sharedWords
  texture : ∀ id, TaskMentions k task (.texture id) ∨ TaskMentions k task (.storageTexture id) ∨
    TaskMentions k task (.sampler id) → ∃ t, rs.texture t ∧ t.id = id

theorem mention_of_taskMentions {kind : ResourceKind} (h : TaskMentions k task kind)
    (hkind : kind ≠ .args) :
    ∃ i o, .op i o ∈ task.statements ∧ Mentions (fieldIn task.statements) (sharedIn k) o kind := by
  rcases h with ⟨heq, -⟩ | h
  · exact absurd heq hkind
  · exact h

theorem backed_lower (hg : HostGives (WellFormed rs) scope templates)
    (h : lower r scope templates settings = .ok k) (ht : task ∈ k.tasks) : Backed rs k task := by
  obtain ⟨hfields, hsupplied⟩ := supplied_lower hg h
  have htyped := (typing_lower hg h).2
  have hin : ∀ {i o}, .op i o ∈ task.statements → IR.Stmt.op i o ∈ k.statements :=
    fun hs => mem_flatMap.2 ⟨task, ht, hs⟩
  refine ⟨?_, ?_, ?_, ?_, ?_⟩
  · intro id hm
    obtain ⟨i, o, -, p, -, is, offset, hptr⟩ := mention_of_taskMentions hm nofun
    obtain ⟨x, hx, hid⟩ := (hsupplied task ht _ hptr).1 id rfl
    have hsome : (k.field? id).isSome := find?_isSome.2 ⟨x, hx, by simpa using hid⟩
    obtain ⟨f, hf⟩ := Option.isSome_iff_exists.1 hsome
    exact ⟨f, hf, hfields f (mem_of_find?_eq_some hf)⟩
  · rintro (⟨-, hdraws⟩ | ⟨i, _, ho, word, ty, rfl⟩)
    · exact Nat.zero_lt_of_lt (Kernel.paramWords_lt ht hdraws)
    · have hflat := (htyped task ht _ ho).2.1 ty (mem_singleton_self ty)
      have hsize := (Ty.size_bounds hflat).1
      have hstart := (startsAt_of_argLoad (hg.imp fun _ => WellFormed.isTransient) h (hin ho)).le
      have hle := k.paramWords_le
      omega
  · intro hm
    obtain ⟨i, _, ho, value, ty, rfl⟩ := mention_of_taskMentions hm nofun
    obtain ⟨-, hflat, hret⟩ := htyped task ht _ ho
    rw [Kernel.retWords_eq (hret value ty rfl)]
    exact (Ty.size_bounds (hflat ty (mem_singleton_self ty))).1
  · intro hm
    obtain ⟨i, o, -, s, -, x, hx, -⟩ := mention_of_taskMentions hm nofun
    obtain ⟨home, hhome, hdeclared⟩ := declared_of_shared (shareSlots_lower h) hx
    obtain ⟨d, hd, hdecl⟩ := mem_filterMap.1 hdeclared
    have hflat : x.ty.isStruct = false := by
      cases d with
      | op i o =>
        cases o with
        | alloca ty hint =>
          cases hdecl
          exact (htyped home hhome _ hd).2.1 _ (mem_singleton_self _)
        | _ => cases hdecl
      | _ => cases hdecl
    have hsize := (Ty.size_bounds hflat).1
    have hroom := offset_add_size_le hx
    omega
  · rintro id (hm | hm | hm)
    · obtain ⟨i, _, ho, op, coords, value, ty, rfl, -⟩ := mention_of_taskMentions hm nofun
      exact (hsupplied task ht _ ho).2 id rfl
    · obtain ⟨i, _, ho, coords, value, ty, rfl⟩ := mention_of_taskMentions hm nofun
      exact (hsupplied task ht _ ho).2 id rfl
    · obtain ⟨i, _, ho, coords, value, ty, rfl⟩ := mention_of_taskMentions hm nofun
      exact (hsupplied task ht _ ho).2 id rfl

theorem taskMentions_of_binding (hg : HostGives (WellFormed rs) scope templates)
    (h : lower r scope templates settings = .ok k) {settings' : CompilerSettings}
    (ht : k.tasks[index]? = some task) {b : Shader.Binding}
    (hb : b ∈ (ofTask k settings' index task).bindings) : TaskMentions k task b.kind := by
  have hw := wrote_lower hg valueOk_typedHost (fun _ _ => trivial) h settings' ht
  rw [(ofTask_finalState k settings' index task).2] at hb
  have hkind : b.kind ∈ (finalState (taskTarget k index task) settings' task).kinds := mem_map.2 ⟨b, hb, rfl⟩
  rw [hw.adds.kinds] at hkind
  exact hkind.resolve_left not_mem_nil

end ArrayKernel.Lowering

namespace ArrayKernel

open IR Surface Shader Lowering Shows List

/-! ## 2. What a launch binds -/

theorem exists_mapM_ok {ε α β : Type} {f : α → Except ε β} {xs : List α}
    (h : ∀ x ∈ xs, ∃ y, f x = .ok y) : ∃ ys, xs.mapM f = .ok ys := by
  induction xs with
  | nil => exact ⟨[], rfl⟩
  | cons x xs ih =>
    obtain ⟨⟨y, hy⟩, hxs⟩ := forall_mem_cons.1 h
    obtain ⟨ys, hys⟩ := ih hxs
    rw [mapM_cons, hy, hys]
    exact ⟨_, rfl⟩

theorem bindPooled_ok {o : Option PooledBuffer} {n : Nat} (h : Fits o n) (hn : 0 < n)
    {name : String} : ∃ x, Session.bindPooled name o = .ok x := by
  obtain ⟨b, rfl⟩ := Option.ne_none_iff_exists'.1 (mt h.none_iff.1 hn.ne')
  exact ⟨_, rfl⟩

section Bindings

variable {s : Session} {k : IR.Kernel} {rs : Resources} {words : List UInt32} {bufs : LaunchBuffers}
  (hfield : ∀ f, rs.field f → s.stored.field f) (htexture : ∀ t, rs.texture t → s.stored.texture t)
  (hfits : FitsAll k words bufs) (hwords : words.length = k.argWords)
include hfield htexture hfits hwords

theorem resource_ok {task : IR.Task} (hb : Backed rs k task) {kind : ResourceKind}
    (hkind : TaskMentions k task kind) : ∃ x, s.resource k bufs kind = .ok x := by
  have hknown : ∀ id, (∃ t, rs.texture t ∧ t.id = id) → id < s.textures.size := by
    rintro _ ⟨t, ht, rfl⟩
    exact (Array.getElem?_eq_some_iff.1 (htexture t ht)).1
  cases kind with
  | field id =>
    obtain ⟨f, hf, hmade⟩ := hb.field id hkind
    obtain ⟨b, hbuffer⟩ := hfield f hmade
    refine ⟨.buffer b, ?_⟩
    rw [Session.resource, hf]
    show (s.fieldBuffer f).map Bound.buffer = _
    rw [hbuffer]
    rfl
  | args => exact bindPooled_ok hfits.args (hwords ▸ hb.args hkind)
  | rets => exact bindPooled_ok hfits.rets (hb.rets hkind)
  | shared => exact bindPooled_ok hfits.shared (hb.shared hkind)
  | texture id => exact ⟨_, if_pos (hknown id (hb.texture id (.inl hkind)))⟩
  | storageTexture id => exact ⟨_, if_pos (hknown id (hb.texture id (.inr (.inl hkind))))⟩
  | sampler id => exact ⟨_, if_pos (hknown id (hb.texture id (.inr (.inr hkind))))⟩

theorem commandsOf_ok {sk : SessionKernel} (hk : sk.compiled.kernel = k)
    (htasks : ∀ t ∈ sk.compiled.tasks, ∀ b ∈ t.shader.bindings, ∃ task, Backed rs k task ∧ TaskMentions k task b.kind) :
    ∃ cs, s.commandsOf sk bufs = .ok cs := by
  subst hk
  have hdispatch : ∀ x ∈ sk.compiled.tasks.zip sk.pipelines,
      ∃ c, s.dispatchOf sk.compiled.kernel bufs x.1 x.2 = .ok c := by
    rintro ⟨t, p⟩ hx
    obtain ⟨bound, hbound⟩ := exists_mapM_ok fun b hb => by
      obtain ⟨task, hbacked, hmention⟩ := htasks t (of_mem_zip hx).1 b hb
      exact resource_ok hfield htexture hfits hwords hbacked hmention
    unfold Session.dispatchOf
    rw [hbound]
    exact ⟨_, rfl⟩
  obtain ⟨dispatches, hall⟩ := exists_mapM_ok hdispatch
  unfold Session.commandsOf
  simp only [hall]
  cases bufs.rets with
  | none => exact ⟨_, rfl⟩
  | some rets =>
    cases bufs.staging with
    | none | some staging => exact ⟨_, rfl⟩

end Bindings

theorem binding_backed {source : String} {scope : Scope} {templates : List (String × Value)}
    {settings : CompilerSettings} {c : CompiledKernel} {rs : Resources}
    (hg : HostGives (WellFormed rs) scope templates)
    (hc : compile source scope templates settings = .ok c) :
    ∀ t ∈ c.tasks, ∀ b ∈ t.shader.bindings, ∃ task, Backed rs c.kernel task ∧ TaskMentions c.kernel task b.kind := by
  obtain ⟨r, -, hlower, htasks⟩ := compile_ok hc
  intro t ht b hb
  have hshader : t.shader ∈ ofKernel c.kernel settings := map_shader_of_mapM htasks ▸ mem_map_of_mem ht
  obtain ⟨index, hi, heq⟩ := mem_mapIdx.1 hshader
  rw [← heq] at hb
  refine ⟨_, backed_lower hg hlower (getElem_mem hi), ?_⟩
  exact taskMentions_of_binding hg hlower (getElem?_eq_getElem hi) hb

/-! ## 3. Launches -/

/-- A launch of the kernel succeeds: its submission has run to its end, its buffers have room for
all words of the kernel, and however the session goes on, somebody can wait for it. -/
structure Launches (s : Session) (k : SessionKernel) (args : List Value) : Prop where
  launched : ∃ id l words, (s.step (.launch k args)).1 = .launched id
    ∧ (s.step (.launch k args)).2.pending.lookup id = some l ∧ l.outcome = .ok ()
    ∧ s.argumentWords k.compiled.kernel args = .ok words ∧ words.length = k.compiled.kernel.argWords
    ∧ FitsAll k.compiled.kernel words l.buffers
    ∧ ∀ later : List SessionOp, (∀ op ∈ later, op.Spares id) →
        ∃ ls, (((s.step (.launch k args)).2.run later).2.step (.wait id)).1 = .result ls
  /-- The shaders are those of the tasks, and none has an index outside of the words. -/
  shaders : ∃ settings, k.compiled.tasks.map CompiledTask.shader = ofKernel k.compiled.kernel settings
    ∧ ∀ index task, k.compiled.kernel.tasks[index]? = some task → IndicesFit k.compiled.kernel settings index task

theorem argumentWords_ok {s : Session} {k : IR.Kernel} {args : List Value} {words : List UInt32}
    (hk : ∀ p ∈ k.params, p.ty.isStruct = false) (h : encodeArguments k args = .ok words) :
    ∃ all, s.argumentWords k args = .ok all ∧ all.length = k.argWords := by
  have hlen := length_encodeArguments hk h
  unfold Session.argumentWords
  rw [h]
  refine ⟨_, rfl, ?_⟩
  rw [Kernel.argWords]
  split
  · rw [length_append, hlen]
    rfl
  · exact hlen

/-- In any session that has come to be from operations, a kernel that was made from fields and
textures of the session can be launched with all arguments that can be encoded. -/
theorem launch_never_fails (settings : Settings) (clock : Nat) (before between : List SessionOp)
    {source : String} {scope : Scope} {templates : List (String × Value)} {k : SessionKernel}
    {args : List Value} {words : List UInt32}
    (hg : HostGives (WellFormed (made (({ settings, clock } : Session).run before).1)) scope templates)
    (hk : ((({ settings, clock } : Session).run before).2.step (.kernel source scope templates)).1 = .kernel k)
    (hargs : encodeArguments k.compiled.kernel args = .ok words) :
    Launches (((({ settings, clock } : Session).run before).2.step
      (.kernel source scope templates)).2.run between).2 k args := by
  let s₁ := (({ settings, clock } : Session).run before).2
  let s₂ := (s₁.step (.kernel source scope templates)).2
  let s := (s₂.run between).2
  show Launches s k args
  have hc := kernel_ok hk
  obtain ⟨r, -, hlower, hshaders⟩ := compile_ok hc
  -- what has been made before the kernel is still there
  obtain ⟨-, hfield, htexture⟩ := stays_run { settings, clock } before
  have hgrows : Grows s₁ s := (stays_step s₁ (.kernel source scope templates)).grows.trans (stays_run s₂ between).1
  -- the session shows a map of fields throughout
  obtain ⟨m₁, -, h₁⟩ := (Books.start settings clock).refines_run before
  obtain ⟨-, h₂⟩ := h₁.refines_step (.kernel source scope templates)
  obtain ⟨m, -, h⟩ := h₂.refines_run between
  obtain ⟨inner, b, hbind⟩ := bindParams_lower hlower
  obtain ⟨all, hall, hlen⟩ := argumentWords_ok (boundFrom_bindParams hbind).flat hargs
  refine ⟨?_, s₁.settings.compiler, map_shader_of_mapM hshaders, fun index task ht => indicesFit_lower hg hlower _ ht⟩
  rcases h.launch_cases k args with ⟨e, herr, -⟩ | ⟨words', bufs, s', hwords, -, hfits, hsame, hend⟩
  · rw [hall] at herr
    cases herr
  · rw [hall] at hwords
    cases hwords
    have hgrows' : Grows s₁ s' := hgrows.trans hsame.grows
    obtain ⟨cs, hcs⟩ := commandsOf_ok (fun f hf => hgrows'.field (hfield f hf))
      (fun t ht => hgrows'.textures _ _ (htexture t ht)) hfits hlen rfl (binding_backed hg hc)
    rcases hend with ⟨e, s'', herr, -, -⟩ | ⟨cs', s'', l, -, hrun, hpending, houtcome, hbuffers, hshows⟩
    · rw [hcs] at herr
      cases herr
    · have hstep : s.step (.launch k args) = (.launched ⟨m.submitted⟩, s'') := Session.step_ok rfl hrun
      refine ⟨⟨m.submitted⟩, l, all, ?_, ?_, houtcome, hall, hlen, hbuffers ▸ hfits, fun later hlater => ?_⟩
      · rw [hstep]
      · rw [hstep]
        exact hpending
      · rw [hstep]
        obtain ⟨ret, hret⟩ := wait_of_pending hshows hlater (by rw [lookup_cons_self]; rfl)
        exact ⟨_, hret⟩

/-! ## 4. A kernel with all kinds of buffers -/

def grainField : FieldInfo := { id := 0, name := "cells", shape := [8], elem := .i32 }

def grainImage : TextureInfo :=
  { id := 0, name := "image", dims := [8, 8], format := .rgba8unorm, storage := true }

def grainOps : List SessionOp := [.field "cells" [8] .i32, .texture "image" [8, 8] .rgba8unorm true]

def grainScope : Scope where
  table := [("cells", .field grainField), ("image", .texture grainImage)]

/-- Three tasks that share a slot, with arguments, a seed and a result. -/
def grainSource : String :=
  "(n: i32) => \x7b let total = 0; for (const i of range(8)) \x7b cells[i] = i * n; total += cells[i]; "
    ++ "textureStore(image, [i, 0], [random(), 0, 0, 1]); \x7d return total \x7d"

theorem made_grainOps :
    (({} : Session).run grainOps).1 = [.field grainField, .texture grainImage] := rfl

theorem grainScope_given :
    HostGives (WellFormed (made (({} : Session).run grainOps).1)) grainScope [] where
  table p hp := by
    simp only [grainScope, mem_cons, not_mem_nil, or_false] at hp
    rcases hp with rfl | rfl
    · exact mem_cons_self ..
    · exact mem_cons_of_mem _ (mem_singleton_self _)
  receiver := nofun
  templates := nofun

theorem grainScope_bindable : HostGives (Bindable [grainField] [grainImage]) grainScope [] where
  table p hp := by
    simp only [grainScope, mem_cons, not_mem_nil, or_false] at hp
    rcases hp with rfl | rfl
    · exact mem_singleton_self _
    · exact mem_singleton_self _
  receiver := nofun
  templates := nofun

theorem launch_never_fails_grain :
    ∃ k, ((({} : Session).run grainOps).2.step (.kernel grainSource grainScope [])).1 = .kernel k
      ∧ k.compiled.kernel.tasks.length = 3 ∧ k.compiled.kernel.argWords = 2 ∧ k.compiled.kernel.retWords = 1
      ∧ k.compiled.kernel.sharedWords = 1 ∧ encodeArguments k.compiled.kernel [.number (.i32 3)] = .ok [3]
      ∧ Launches (((({} : Session).run grainOps).2.step (.kernel grainSource grainScope [])).2.run
          [.read grainField]).2 k [.number (.i32 3)] := by
  obtain ⟨r, ir, hr, hir, hfacts⟩ := exists_of_kernelHas
    (fun k => k.tasks.length = 3 ∧ k.argWords = 2 ∧ k.retWords = 1 ∧ k.sharedWords = 1
      ∧ (encodeArguments k [.number (.i32 3)]).toOption = some [3]) grainSource grainScope (by decide +kernel)
  obtain ⟨htasks, hargs, hrets, hshared, hwords⟩ := of_decide_eq_true hfacts
  -- the shaders are read back, so the kernel can be made
  obtain ⟨c, hc, rfl⟩ := exists_compile grainScope_bindable ⟨by decide, by decide, by decide⟩ (by decide) hr hir
  have hback := readBack_compile grainScope_bindable ⟨by decide, by decide, by decide⟩ (by decide) hc
  obtain ⟨k, hk, hcompiled, -⟩ := kernel_made (s := (({} : Session).run grainOps).2) (fun _ _ h => by cases h) hc hback
  have hencoded : encodeArguments k.compiled.kernel [.number (.i32 3)] = .ok [3] := by
    rw [hcompiled]
    cases henc : encodeArguments c.kernel [.number (.i32 3)] with
    | error e =>
      rw [henc] at hwords
      cases hwords
    | ok words =>
      rw [henc] at hwords
      exact congrArg Except.ok (Option.some.inj hwords)
  refine ⟨k, hk, ?_, ?_, ?_, ?_, hencoded, launch_never_fails {} 0 grainOps
    [.read grainField] grainScope_given hk hencoded⟩
  all_goals rw [hcompiled]; assumption

end ArrayKernel
