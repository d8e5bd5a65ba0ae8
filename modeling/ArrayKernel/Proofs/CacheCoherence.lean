import ArrayKernel.Device.Cache

/-!
# One handle for each key

A request finds what it asks for, or the device makes it, or nothing changes
(`Workshop.outcome_ask`). So along any requests the cache is a table in which no handle stands
twice (`cache_coherent`).
-/

namespace ArrayKernel

open List Option

/-- What a cache is asked for: a module by its text, a pipeline by its description. -/
inductive CacheKey where
  | module (code : String)
  | compute (p : ComputePipeline)
  | render (p : RenderPipeline)
  deriving DecidableEq, Repr

/-- What it gives. Pipelines of both kinds are objects of one sort. -/
inductive CacheHandle where
  | module (id : ModuleId)
  | pipeline (id : PipelineId)
  deriving DecidableEq, Repr

def Cache.handle? (c : Cache) : CacheKey → Option CacheHandle
  | .module code => (c.modules.lookup code).map .module
  | .compute p => (c.compute.lookup p).map .pipeline
  | .render p => (c.render.lookup p).map .pipeline

def Device.Has (d : Device) : CacheHandle → Prop
  | .module id => id.index < d.modules.size
  | .pipeline id => id.index < d.pipelines.size

structure Workshop where
  cache : Cache := {}
  device : Device

namespace Workshop

variable {handle : CacheHandle} {k : CacheKey} {label : String}

/-- The answer to a request, and the workshop after it. A failure leaves the workshop as it is. -/
def settle {α : Type} (w : Workshop) (handle : α → CacheHandle) :
    Except DeviceError (α × Cache × Device) → Except DeviceError CacheHandle × Workshop
  | .ok (a, cache, device) => (.ok (handle a), { cache, device })
  | .error e => (.error e, w)

def ask (w : Workshop) : CacheKey → Except DeviceError CacheHandle × Workshop
  | .module code => w.settle .module (w.cache.module w.device code)
  | .compute p => w.settle .pipeline (w.cache.computePipeline w.device p)
  | .render p => w.settle .pipeline (w.cache.renderPipeline w.device p)

def askAll (w : Workshop) : List CacheKey → List (Except DeviceError CacheHandle) × Workshop
  | [] => ([], w)
  | key :: keys => ((w.ask key).1 :: ((w.ask key).2.askAll keys).1, ((w.ask key).2.askAll keys).2)

/-! ## 1. One request -/

/-- The device has one object more for each entry than the device `d`, and each entry was missed
once. -/
structure Accounts (d : Device) (w : Workshop) : Prop where
  modules : w.device.modules.size = d.modules.size + w.cache.modules.length
  compute : w.device.pipelineCount .compute = d.pipelineCount .compute + w.cache.compute.length
  render : w.device.pipelineCount .render = d.pipelineCount .render + w.cache.render.length
  misses : w.cache.misses = w.cache.size

/-- The device has made an object for the key, and the cache keeps it. -/
structure Makes (w : Workshop) (key : CacheKey) (handle : CacheHandle) (w' : Workshop) : Prop where
  absent : w.cache.handle? key = none
  kept (k : CacheKey) : w'.cache.handle? k = if k = key then some handle else w.cache.handle? k
  fresh : ¬w.device.Has handle
  has (h : CacheHandle) : w.device.Has h ∨ h = handle → w'.device.Has h
  hits : w'.cache.hits = w.cache.hits
  misses : w'.cache.misses = w.cache.misses + 1
  accounts (d : Device) : w.Accounts d → w'.Accounts d

theorem lookup_cons_of_key {α β : Type} [BEq α] [LawfulBEq α] [DecidableEq α] (k key : α) (v : β)
    (t : List (α × β)) : ((key, v) :: t).lookup k = if k = key then some v else t.lookup k := by
  by_cases h : k = key
  · rw [h, lookup_cons_self, if_pos rfl]
  · rw [lookup_cons, beq_eq_false_iff_ne.2 h, if_neg h]

theorem pipelineCount_addPipeline {d : Device} {kind kind' : PipelineKind} :
    (d.addPipeline kind label).2.pipelineCount kind' = d.pipelineCount kind' + if kind = kind' then 1 else 0 := by
  simp only [Device.addPipeline, Device.pipelineCount, Array.countP_push, beq_iff_eq]

variable {w : Workshop}

theorem makes_module {code : String} {m : ShaderModule}
    (hnew : w.cache.modules.lookup code = none) :
    w.Makes (.module code) (.module ⟨w.device.modules.size⟩)
      { cache := { w.cache with
          modules := (code, ⟨w.device.modules.size⟩) :: w.cache.modules, misses := w.cache.misses + 1 }
        device := { w.device with modules := w.device.modules.push m } } where
  absent := by simp only [Cache.handle?, hnew, map_none]
  kept k := by
    cases k with
    | module code' =>
      simp only [Cache.handle?, lookup_cons_of_key, CacheKey.module.injEq]
      split <;> rfl
    | compute p | render p => rfl
  fresh := Nat.lt_irrefl _
  has h := by
    cases h with
    | module id =>
      simp only [Device.Has, Array.size_push, CacheHandle.module.injEq]
      rintro (h | rfl)
      · exact Nat.lt_succ_of_lt h
      · exact Nat.lt_succ_self _
    | pipeline id => exact fun h => h.resolve_right nofun
  hits := rfl
  misses := rfl
  accounts d h := by
    refine ⟨?_, h.compute, h.render, ?_⟩
    · simp only [Array.size_push, length_cons, h.modules]
      omega
    · simp only [Cache.size, length_cons, h.misses]
      omega

theorem has_addPipeline (d : Device) (kind : PipelineKind) (label : String) (h : CacheHandle) :
    d.Has h ∨ h = .pipeline (d.addPipeline kind label).1 → (d.addPipeline kind label).2.Has h := by
  cases h with
  | module id => exact fun h => h.resolve_right nofun
  | pipeline id =>
    simp only [Device.Has, Device.addPipeline, Array.size_push, CacheHandle.pipeline.injEq]
    rintro (h | rfl)
    · exact Nat.lt_succ_of_lt h
    · exact Nat.lt_succ_self _

theorem makes_compute {p : ComputePipeline} (hnew : w.cache.compute.lookup p = none) :
    w.Makes (.compute p) (.pipeline (w.device.addPipeline .compute label).1)
      { cache := { w.cache with
          compute := (p, (w.device.addPipeline .compute label).1) :: w.cache.compute, misses := w.cache.misses + 1 }
        device := (w.device.addPipeline .compute label).2 } where
  absent := by simp only [Cache.handle?, hnew, map_none]
  kept k := by
    cases k with
    | compute p' =>
      simp only [Cache.handle?, lookup_cons_of_key, CacheKey.compute.injEq]
      split <;> rfl
    | module code | render p' => rfl
  fresh := Nat.lt_irrefl _
  has := has_addPipeline w.device .compute label
  hits := rfl
  misses := rfl
  accounts d h := by
    refine ⟨h.modules, ?_, ?_, ?_⟩
    · simp only [pipelineCount_addPipeline, length_cons, h.compute, if_true]
      omega
    · simp only [pipelineCount_addPipeline, reduceCtorEq, if_false, h.render]
      omega
    · simp only [Cache.size, length_cons, h.misses]
      omega

theorem makes_render {p : RenderPipeline} (hnew : w.cache.render.lookup p = none) :
    w.Makes (.render p) (.pipeline (w.device.addPipeline .render label).1)
      { cache := { w.cache with
          render := (p, (w.device.addPipeline .render label).1) :: w.cache.render, misses := w.cache.misses + 1 }
        device := (w.device.addPipeline .render label).2 } where
  absent := by simp only [Cache.handle?, hnew, map_none]
  kept k := by
    cases k with
    | render p' =>
      simp only [Cache.handle?, lookup_cons_of_key, CacheKey.render.injEq]
      split <;> rfl
    | module code | compute p' => rfl
  fresh := Nat.lt_irrefl _
  has := has_addPipeline w.device .render label
  hits := rfl
  misses := rfl
  accounts d h := by
    refine ⟨h.modules, ?_, ?_, ?_⟩
    · simp only [pipelineCount_addPipeline, reduceCtorEq, if_false, h.compute]
      omega
    · simp only [pipelineCount_addPipeline, length_cons, h.render, if_true]
      omega
    · simp only [Cache.size, length_cons, h.misses]
      omega

inductive Outcome (w : Workshop) (key : CacheKey) :
    Except DeviceError CacheHandle × Workshop → Prop where
  | found {handle : CacheHandle} (h : w.cache.handle? key = some handle) :
    Outcome w key (.ok handle, { w with cache := w.cache.hit })
  | made {handle : CacheHandle} {w' : Workshop} (h : w.Makes key handle w') : Outcome w key (.ok handle, w')
  | failed (e : DeviceError) (h : w.cache.handle? key = none) : Outcome w key (.error e, w)

theorem outcome_ask (w : Workshop) (key : CacheKey) : w.Outcome key (w.ask key) := by
  cases key with
  | module code =>
    show w.Outcome (.module code) (w.settle .module (w.cache.module w.device code))
    unfold Cache.module
    cases hl : w.cache.modules.lookup code with
    | some id => exact .found (by rw [Cache.handle?, hl, map_some])
    | none =>
      unfold Device.createModule
      cases Shader.reflect code with
      | error e => exact .failed _ (by rw [Cache.handle?, hl, map_none])
      | ok r => exact .made (makes_module hl)
  | compute p =>
    show w.Outcome (.compute p) (w.settle .pipeline (w.cache.computePipeline w.device p))
    unfold Cache.computePipeline
    cases hl : w.cache.compute.lookup p with
    | some id => exact .found (by rw [Cache.handle?, hl, map_some])
    | none =>
      unfold Device.createCompute
      dsimp only
      cases w.device.checkEntry (p.label.getD "") p.module p.entry .compute with
      | error e => exact .failed _ (by rw [Cache.handle?, hl, map_none])
      | ok u => exact .made (makes_compute hl)
  | render p =>
    show w.Outcome (.render p) (w.settle .pipeline (w.cache.renderPipeline w.device p))
    unfold Cache.renderPipeline
    cases hl : w.cache.render.lookup p with
    | some id => exact .found (by rw [Cache.handle?, hl, map_some])
    | none =>
      unfold Device.createRender
      dsimp only
      cases w.device.checkEntry (p.label.getD "") p.vertex p.vertexEntry .vertex with
      | error e => exact .failed _ (by rw [Cache.handle?, hl, map_none])
      | ok u =>
        cases p.fragment with
        | none => exact .made (makes_render hl)
        | some f =>
          obtain ⟨m, entry⟩ := f
          dsimp only
          cases w.device.checkEntry (p.label.getD "") m entry .fragment with
          | error e => exact .failed _ (by rw [Cache.handle?, hl, map_none])
          | ok u => exact .made (makes_render hl)

/-! ## 2. Requests in order -/

/-- Keys and handles stand for each other, and the counters tell how many there are. -/
structure Coherent (d : Device) (w : Workshop) : Prop where
  accounts : w.Accounts d
  has (key : CacheKey) (handle : CacheHandle) : w.cache.handle? key = some handle → w.device.Has handle
  apart (key key' : CacheKey) (handle : CacheHandle) :
    w.cache.handle? key = some handle → w.cache.handle? key' = some handle → key = key'

theorem Coherent.start (d : Device) : Coherent d { device := d } where
  accounts := ⟨rfl, rfl, rfl, rfl⟩
  has key handle h := by cases key <;> cases h
  apart key key' handle h := by cases key <;> cases h

variable {d : Device} {key : CacheKey}

/-- The new handle is none of the old ones, since the device had no such object before. -/
theorem Coherent.made {w' : Workshop} (hw : Coherent d w) (h : w.Makes key handle w') :
    Coherent d w' where
  accounts := h.accounts d hw.accounts
  has k g hk := by
    rw [h.kept] at hk
    split at hk
    · cases hk
      exact h.has _ (.inr rfl)
    · exact h.has _ (.inl (hw.has k g hk))
  apart k k' g hk hk' := by
    rw [h.kept] at hk hk'
    split at hk <;> split at hk'
    · rename_i heq heq'
      rw [heq, heq']
    · cases hk
      exact absurd (hw.has _ _ hk') h.fresh
    · cases hk'
      exact absurd (hw.has _ _ hk) h.fresh
    · exact hw.apart k k' g hk hk'

theorem Coherent.ask (hw : Coherent d w) (key : CacheKey) : Coherent d (w.ask key).2 := by
  cases h : w.ask key with
  | mk answer w' =>
    cases h ▸ outcome_ask w key with
    | found _ => exact ⟨⟨hw.accounts.modules, hw.accounts.compute, hw.accounts.render,
        hw.accounts.misses⟩, hw.has, hw.apart⟩
    | made h => exact hw.made h
    | failed e _ => exact hw

theorem handle?_ask (h : w.cache.handle? k = some handle) :
    (w.ask key).2.cache.handle? k = some handle := by
  cases hrun : w.ask key with
  | mk answer w' =>
    cases hrun ▸ outcome_ask w key with
    | found _ | failed e _ => exact h
    | made hmade =>
      rw [hmade.kept, if_neg]
      · exact h
      · rintro rfl
        rw [hmade.absent] at h
        cases h

theorem handle?_of_answer (h : (w.ask key).1 = .ok handle) :
    (w.ask key).2.cache.handle? key = some handle := by
  cases hrun : w.ask key with
  | mk answer w' =>
    rw [hrun] at h
    cases hrun ▸ outcome_ask w key with
    | found hfound =>
      cases h
      exact hfound
    | failed e _ => cases h
    | made hmade =>
      cases h
      rw [hmade.kept, if_pos rfl]

theorem requests_ask (w : Workshop) (key : CacheKey) :
    (w.ask key).2.cache.hits + (w.ask key).2.cache.misses =
      w.cache.hits + w.cache.misses + if (w.ask key).1.isOk then 1 else 0 := by
  cases hrun : w.ask key with
  | mk answer w' =>
    cases hrun ▸ outcome_ask w key with
    | found _ =>
      simp only [Cache.hit, Except.toBool, if_true]
      omega
    | failed e _ => rfl
    | made hmade =>
      simp only [hmade.hits, hmade.misses, Except.toBool, if_true]
      omega

theorem Coherent.askAll (hw : Coherent d w) (keys : List CacheKey) :
    Coherent d (w.askAll keys).2 := by
  induction keys generalizing w with
  | nil => exact hw
  | cons key keys ih => exact ih (hw.ask key)

theorem handle?_askAll (h : w.cache.handle? k = some handle) {keys : List CacheKey} :
    (w.askAll keys).2.cache.handle? k = some handle := by
  induction keys generalizing w with
  | nil => exact h
  | cons key keys ih => exact ih (handle?_ask h)

theorem handle?_of_mem {keys : List CacheKey} (h : (key, .ok handle) ∈ keys.zip (w.askAll keys).1) :
    (w.askAll keys).2.cache.handle? key = some handle := by
  induction keys generalizing w with
  | nil => cases h
  | cons k keys ih =>
    rcases mem_cons.1 h with heq | h
    · obtain ⟨rfl, heq⟩ := Prod.mk.inj heq
      exact handle?_askAll (handle?_of_answer heq.symm)
    · exact ih h

theorem requests_askAll (w : Workshop) (keys : List CacheKey) :
    (w.askAll keys).2.cache.hits + (w.askAll keys).2.cache.misses =
      w.cache.hits + w.cache.misses + (w.askAll keys).1.countP Except.isOk := by
  induction keys generalizing w with
  | nil => rfl
  | cons key keys ih =>
    have hstep := requests_ask w key
    have hrest := ih (w.ask key).2
    simp only [Workshop.askAll, countP_cons]
    omega

theorem length_askAll (w : Workshop) (keys : List CacheKey) :
    (w.askAll keys).1.length = keys.length := by
  induction keys generalizing w with
  | nil => rfl
  | cons key keys ih => exact congrArg (· + 1) (ih (w.ask key).2)

end Workshop

open Workshop in
/-- Along any requests, answers are equal just if the keys are, and the counters tell how many
entries and objects there are and how many requests were answered. -/
theorem cache_coherent (d : Device) (keys : List CacheKey) :
    let answers := (Workshop.askAll { device := d } keys).1
    let w := (Workshop.askAll { device := d } keys).2
    answers.length = keys.length ∧
    (∀ key key' handle handle', (key, .ok handle) ∈ keys.zip answers →
      (key', .ok handle') ∈ keys.zip answers → (handle = handle' ↔ key = key')) ∧
    -- One miss, one entry and one new object of the device go together, for each sort of objects.
    w.cache.misses = w.cache.size ∧
    w.device.modules.size = d.modules.size + w.cache.modules.length ∧
    w.device.pipelineCount .compute = d.pipelineCount .compute + w.cache.compute.length ∧
    w.device.pipelineCount .render = d.pipelineCount .render + w.cache.render.length ∧
    w.cache.hits + w.cache.misses = answers.countP Except.isOk ∧
    ∀ key e, (w.ask key).1 = .error e → (w.ask key).2 = w := by
  intro answers w
  have hw : Coherent d w := (Coherent.start d).askAll keys
  refine ⟨length_askAll _ keys, fun key key' handle handle' hk hk' => ⟨?_, ?_⟩, hw.accounts.misses,
    hw.accounts.modules, hw.accounts.compute, hw.accounts.render, ?_, fun key e he => ?_⟩
  · rintro rfl
    exact hw.apart key key' handle (handle?_of_mem hk) (handle?_of_mem hk')
  · rintro rfl
    exact Option.some.inj ((handle?_of_mem hk).symm.trans (handle?_of_mem hk'))
  · simpa using requests_askAll { device := d } keys
  · cases hrun : w.ask key with
    | mk answer w' =>
      rw [hrun] at he
      cases hrun ▸ outcome_ask w key with
      | found _ | made _ => cases he
      | failed _ _ => rfl

end ArrayKernel
