import ArrayKernel.Proofs.Reflection
import ArrayKernel.Proofs.Sessions

/-!
# Kernels of a session

A session makes one module and one pipeline for each shader, or finds what it has made before. If
the shaders are read back, making a kernel does not fail.
-/

namespace ArrayKernel

open Surface Shader Lowering Shows Session

variable {source name : String} {scope : Scope} {templates : List (String × Value)} {s s' : Session}
  {settings : CompilerSettings} {c : CompiledKernel} {k : SessionKernel} {task : CompiledTask}
  {fields : List FieldInfo} {textures : List TextureInfo}

/-! ## 1. Kernels that have been made -/

theorem compile_ok (h : compile source scope templates settings = .ok c) :
    ∃ r, Routine.parse kernelFile source = .ok r ∧ lower r scope templates settings = .ok c.kernel
      ∧ (ofKernel c.kernel settings).mapM CompiledTask.ofShader = .ok c.tasks := by
  unfold compile at h
  cases hr : Routine.parse kernelFile source with
  | error cs =>
    rw [hr] at h
    cases h
  | ok r =>
    rw [hr] at h
    obtain ⟨k, hk, h⟩ := except_bind_ok h
    obtain ⟨tasks, htasks, h⟩ := except_bind_ok h
    cases h
    exact ⟨r, rfl, hk, htasks⟩

theorem compile_of_kernel (h : kernel source scope templates s = .ok k s') :
    compile source scope templates s.settings.compiler = .ok k.compiled := by
  cases hc : compile source scope templates s.settings.compiler with
  | error e =>
    rw [kernel_error hc] at h
    cases h
  | ok c =>
    rw [kernel_eq hc] at h
    cases hp : (c.tasks.zipIdx.mapM fun x => pipelineOf c.kernel.name x.2 x.1) s with
    | error e s1 =>
      rw [run_bind_error hp] at h
      cases h
    | ok pipelines s1 =>
      rw [run_bind hp] at h
      cases h
      rfl

theorem kernel_ok (h : (s.step (.kernel source scope templates)).1 = .kernel k) :
    compile source scope templates s.settings.compiler = .ok k.compiled := by
  cases hrun : kernel source scope templates s with
  | error e s' =>
    rw [step_error rfl hrun] at h
    cases h
  | ok k' s' =>
    rw [step_ok rfl hrun] at h
    cases h
    exact compile_of_kernel hrun

theorem shader_ofShader {shader : TaskShader} {t : CompiledTask}
    (h : CompiledTask.ofShader shader = .ok t) : t.shader = shader := by
  unfold CompiledTask.ofShader at h
  split at h
  · cases h
    rfl
  · cases h

theorem map_shader_of_mapM {shaders : List TaskShader} {ts : List CompiledTask}
    (h : shaders.mapM CompiledTask.ofShader = .ok ts) : ts.map CompiledTask.shader = shaders := by
  induction shaders generalizing ts with
  | nil =>
    cases h
    rfl
  | cons x xs ih =>
    rw [List.mapM_cons] at h
    obtain ⟨t, ht, h⟩ := except_bind_ok h
    obtain ⟨rest, hrest, h⟩ := except_bind_ok h
    cases h
    rw [List.map_cons, shader_ofShader ht, ih hrest]

/-! ## 2. Shaders that are read back -/

def ReadBack (task : CompiledTask) : Prop :=
  reflect task.shader.text = .ok task.reflection ∧ task.reflection.stage = .compute

theorem module_made (hs : CacheReads s) (ht : ReadBack task) :
    ∃ id cache device m, s.cache.module s.device task.shader.text = .ok (id, cache, device)
      ∧ device.modules[id.index]? = some m ∧ m.reflection = task.reflection := by
  unfold Cache.module
  cases hl : s.cache.modules.lookup task.shader.text with
  | some id =>
    obtain ⟨m, hm, hread⟩ := hs _ _ hl
    rw [ht.1] at hread
    exact ⟨id, s.cache.hit, s.device, m, rfl, hm, (Except.ok.inj hread).symm⟩
  | none =>
    unfold Device.createModule
    rw [ht.1]
    exact ⟨_, _, _, _, rfl, Array.getElem?_push_size, rfl⟩

theorem pipeline_made (hs : CacheReads s) {index : Nat} (ht : ReadBack task) :
    ∃ id s', pipelineOf name index task s = .ok id s' ∧ CacheReads s' := by
  obtain ⟨module, cache, device, m, hmodule, hm, hreflection⟩ := module_made hs ht
  let p : ComputePipeline := { label := s!"{name}_{index}_{task.fingerprint}", module, entry := task.reflection.entry }
  obtain ⟨⟨id, cache', device'⟩, hp⟩ : ∃ x, cache.computePipeline device p = .ok x := by
    unfold Cache.computePipeline
    cases cache.compute.lookup p with
    | some id => exact ⟨_, rfl⟩
    | none =>
      have hentry : device.checkEntry (p.label.getD "") p.module p.entry .compute = .ok () := by
        rw [Device.checkEntry, hm]
        exact if_pos ⟨congrArg Reflection.entry hreflection, (congrArg Reflection.stage hreflection).trans ht.2⟩
      simp only [Device.createCompute, hentry]
      exact ⟨_, rfl⟩
  have hrun : pipelineOf name index task s = .ok id { s with cache := cache', device := device' } := by
    show EStateM.bind (ofExcept (s.cache.module s.device task.shader.text)) _ s = _
    rw [hmodule]
    show EStateM.bind (ofExcept (cache.computePipeline device p)) _ _ = _
    rw [hp]
    rfl
  have hprepared := prepared_pipelineOf name index task s
  rw [hrun] at hprepared
  exact ⟨id, _, hrun, hprepared.2 hs⟩

theorem pipelines_made (hs : CacheReads s) {tasks : List (CompiledTask × Nat)}
    (ht : ∀ x ∈ tasks, ReadBack x.1) :
    ∃ ids s', (tasks.mapM fun (task, i) => pipelineOf name i task) s = .ok ids s' ∧ ids.length = tasks.length := by
  induction tasks generalizing s with
  | nil => exact ⟨[], s, rfl, rfl⟩
  | cons x xs ih =>
    obtain ⟨hx, hxs⟩ := List.forall_mem_cons.1 ht
    obtain ⟨id, s1, hid, hs1⟩ := pipeline_made hs hx
    obtain ⟨ids, s', hids, hlength⟩ := ih hs1 hxs
    refine ⟨id :: ids, s', ?_, congrArg Nat.succ hlength⟩
    rw [List.mapM_cons]
    exact (run_bind hid).trans (run_bind hids)

theorem kernel_runs (hs : CacheReads s)
    (hc : compile source scope templates s.settings.compiler = .ok c)
    (ht : ∀ task ∈ c.tasks, ReadBack task) :
    ∃ k s', kernel source scope templates s = .ok k s' ∧ k.compiled = c ∧ k.pipelines.length = c.tasks.length := by
  have htasks : ∀ x ∈ c.tasks.zipIdx, ReadBack x.1 := fun x hx => ht x.1 (List.fst_mem_of_mem_zipIdx hx)
  obtain ⟨ids, s1, hids, hlength⟩ := pipelines_made hs htasks
  exact ⟨_, _, (kernel_eq hc).trans (run_bind hids), rfl, hlength.trans List.length_zipIdx⟩

theorem kernel_made (hs : CacheReads s)
    (hc : compile source scope templates s.settings.compiler = .ok c)
    (ht : ∀ task ∈ c.tasks, ReadBack task) :
    ∃ k, (s.step (.kernel source scope templates)).1 = .kernel k ∧ k.compiled = c
      ∧ k.pipelines.length = c.tasks.length := by
  obtain ⟨k, s', hrun, hk⟩ := kernel_runs hs hc ht
  rw [step_ok rfl hrun]
  exact ⟨k, rfl, hk⟩

/-- All shaders of a kernel that was compiled for a host are read back. -/
theorem readBack_compile (hg : HostGives (Bindable fields textures) scope templates)
    (hfew : FewResources fields textures) (hsize : settings.workgroupSize < 2 ^ 32)
    (hc : compile source scope templates settings = .ok c) : ∀ task ∈ c.tasks, ReadBack task := by
  obtain ⟨r, hr, hk, htasks⟩ := compile_ok hc
  have hread := reflect_text hg hfew hsize hr hk
  intro task htask
  obtain ⟨shader, hshader, heq⟩ := exists_of_mem_mapM htasks htask
  unfold CompiledTask.ofShader at heq
  rw [hread shader hshader] at heq
  cases heq
  exact ⟨hread shader hshader, rfl⟩

theorem exists_compile {r : Routine} {k : IR.Kernel}
    (hg : HostGives (Bindable fields textures) scope templates)
    (hfew : FewResources fields textures) (hsize : settings.workgroupSize < 2 ^ 32)
    (hr : Routine.parse kernelFile source = .ok r) (hk : lower r scope templates settings = .ok k) :
    ∃ c, compile source scope templates settings = .ok c ∧ c.kernel = k := by
  obtain ⟨ts, hts⟩ := mapM_ofShader (reflect_text hg hfew hsize hr hk)
  refine ⟨{ kernel := k, tasks := ts }, ?_, rfl⟩
  unfold compile
  rw [hr]
  show (lower r scope templates settings >>= _) = _
  rw [hk]
  show ((ofKernel k settings).mapM CompiledTask.ofShader >>= _) = _
  rw [hts]
  rfl

end ArrayKernel
