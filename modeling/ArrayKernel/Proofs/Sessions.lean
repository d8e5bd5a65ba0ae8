import ArrayKernel.Proofs.Session.Launches

/-!
# Sessions are maps of fields

A user makes, writes, fills and reads fields, makes kernels, launches them, and waits for launches
or gives them up. All answers are those of a map from fields to words (`session_refines_fieldMap`):
buffers that are used again never show.
-/

namespace ArrayKernel

open Number List Session

variable {α : Type} {s s' : Session} {name : String} {items : List α}

/-! ## 1. Operations and answers -/

inductive SessionOp where
  | field (name : String) (shape : List UInt64) (elem : Ty)
  | texture (name : String) (dims : List Nat) (format : TexelFormat) (storage : Bool)
  | write (f : FieldInfo) (words : List UInt32)
  | fill (f : FieldInfo) (value : Binary64)
  | read (f : FieldInfo)
  | kernel (source : String) (scope : Scope) (templates : List (String × Value))
  | launch (k : SessionKernel) (args : List Value)
  | wait (id : LaunchId)
  | discard (id : LaunchId)
  | tick (now : Nat)

inductive Answer where
  | field (f : FieldInfo)
  | texture (t : TextureInfo)
  | words (ws : List UInt32)
  | kernel (k : SessionKernel)
  | launched (id : LaunchId)
  | result (ls : List Literal)
  | done
  | failed (e : DeviceError)

namespace SessionOp

def act : SessionOp → SessionM Answer
  | field name shape elem => .field <$> createField name shape elem
  | texture name dims format storage => .texture <$> createTexture name dims format storage
  | write f words => (fun _ => .done) <$> writeField f words
  | fill f value => (fun _ => .done) <$> fillField f value
  | read f => .words <$> readWords f
  | kernel source scope templates => .kernel <$> Session.kernel source scope templates
  | launch k args => .launched <$> Session.launch k args
  | wait id => .result <$> Session.wait id
  | discard id => (fun _ => .done) <$> Session.discard id
  | tick now => (fun _ => .done) <$> (modify fun s => { s with clock := now } : SessionM Unit)

end SessionOp

namespace Session

/-- One operation. What it changed before it failed stays. -/
def step (s : Session) (op : SessionOp) : Answer × Session :=
  match op.act s with
  | .ok a s => (a, s)
  | .error e s => (.failed e, s)

def run (s : Session) : List SessionOp → List Answer × Session
  | [] => ([], s)
  | op :: ops => ((s.step op).1 :: ((s.step op).2.run ops).1, ((s.step op).2.run ops).2)

end Session

/-! ## 2. Answers of a map -/

def filled (f : FieldInfo) (value : Binary64) : List UInt32 :=
  (List.range f.storage).map fun i => fillWord value (f.elem.scalars.getD (i % f.elem.size) .i32)

namespace FieldMap

/-- The answer that needs a size. -/
def answerSized (size : Except SizeOverflow Nat) (a : Nat → Answer) : Answer :=
  match size with
  | .error e => .failed (.overflow e)
  | .ok n => a n

def answerToWrite (m : FieldMap) (f : FieldInfo) (ws : List UInt32) : Answer :=
  answerSized f.bytes fun size =>
    if 4 * ws.length ≠ size then .failed (.sizeMismatch f.name size (4 * ws.length))
    else if (m.words? f).isSome then .done else .failed (.unknownResource f.name)

/-- The answers that an operation may have. Whether a kernel can be made and launched is left open.
-/
def Allows (m : FieldMap) : SessionOp → Answer → Prop
  | .field name shape elem, a =>
    a = if shape.isEmpty || shape.contains 0 then .failed
      (.invalidShape name "shape must be non-empty with positive extents")
      else answerSized (FieldInfo.bytes ⟨m.fields.length, name, shape, elem⟩) fun _ =>
        .field ⟨m.fields.length, name, shape, elem⟩
  | .texture .., a => (∃ t, a = .texture t) ∨ ∃ e, a = .failed e
  | .write f ws, a => a = m.answerToWrite f ws
  | .fill f value, a => a = answerSized f.words fun _ => m.answerToWrite f (filled f value)
  | .read f, a => a = ((m.words? f).map Answer.words).getD (.failed (.unknownResource f.name))
  | .kernel .., a => (∃ k, a = .kernel k) ∨ ∃ e, a = .failed e
  | .launch .., a => a = .launched ⟨m.submitted⟩ ∨ ∃ e, a = .failed e
  | .wait id, a => a = ((m.pending.lookup id).map fun ret => Answer.result (zeroResult ret)).getD (.failed .notPending)
  | .discard id, a => a = ((m.pending.lookup id).map fun _ => Answer.done).getD (.failed .notPending)
  | .tick _, a => a = .done

def after (m : FieldMap) : SessionOp → Answer → FieldMap
  | .field .., .field f => { m with fields := m.fields ++ [(f, List.replicate f.storage 0)] }
  | .write f ws, .done => { m with fields := m.fields.set f.id (f, ws) }
  | .fill f value, .done => { m with fields := m.fields.set f.id (f, filled f value) }
  | .launch k _, .launched id =>
    { m with pending := (id, k.compiled.kernel.ret) :: m.pending, submitted := m.submitted + 1 }
  | .wait id, .result _ | .discard id, .done => { m with pending := m.pending.filter (·.1 != id) }
  | _, _ => m

inductive Explains : FieldMap → List SessionOp → List Answer → FieldMap → Prop where
  | nil (m : FieldMap) : Explains m [] [] m
  | cons {m m' : FieldMap} {op : SessionOp} {a : Answer} {ops : List SessionOp} {as : List Answer} :
    m.Allows op a → Explains (m.after op a) ops as m' → Explains m (op :: ops) (a :: as) m'

end FieldMap

/-! ## 3. Fields -/

theorem getElem?_flatten_replicate {k i : Nat} (h : i < k * items.length) :
    (List.replicate k items).flatten[i]? = items[i % items.length]? := by
  induction k generalizing i with
  | zero => omega
  | succ k ih =>
    rw [replicate_succ, flatten_cons]
    by_cases hi : i < items.length
    · rw [getElem?_append_left hi, Nat.mod_eq_of_lt hi]
    · rw [Nat.succ_mul] at h
      rw [getElem?_append_right (by omega), ih (by omega), ← Nat.mod_eq_sub_mod (by omega)]

theorem getElem?_cycled {n i : Nat} (h : i < n) :
    (cycled n items)[i]? = items[i % items.length]? := by
  rw [cycled, getElem?_take, if_pos h]
  by_cases hpos : 0 < items.length
  · have hdiv := Nat.div_add_mod n items.length
    have hmod := Nat.mod_lt n hpos
    apply getElem?_flatten_replicate
    rw [Nat.succ_mul, Nat.mul_comm]
    omega
  · obtain rfl : items = [] := length_eq_zero_iff.1 (by omega)
    simp

theorem cycled_eq_filled (f : FieldInfo) (value : Binary64) :
    cycled f.storage (f.elem.scalars.map (fillWord value)) = filled f value := by
  have hlen : (f.elem.scalars.map (fillWord value)).length = f.elem.size := by
    rw [length_map, Ty.length_scalars]
  by_cases hsize : f.elem.size = 0
  · have hwords : f.storage = 0 := by rw [FieldInfo.storage, hsize, Nat.mul_zero]
    simp [cycled, filled, hwords]
  · apply ext_getElem?
    intro i
    by_cases hi : i < f.storage
    · have hmod : i % f.elem.size < f.elem.scalars.length := by
        rw [Ty.length_scalars]
        exact Nat.mod_lt _ (Nat.pos_of_ne_zero hsize)
      rw [getElem?_cycled hi, hlen, filled, getElem?_map, getElem?_map, getElem?_range hi,
        getElem?_eq_getElem hmod]
      simp [getElem?_eq_getElem hmod]
    · rw [filled, cycled, getElem?_take, if_neg hi, getElem?_eq_none (by simpa using hi)]

theorem fillField_of_words {f : FieldInfo} {n : Nat} (h : f.words = .ok n) (value : Binary64) :
    fillField f value = writeField f (filled f value) := by
  obtain ⟨rfl, -⟩ := f.words_ok_iff.1 h
  rw [fillField, h, ← cycled_eq_filled]
  rfl

theorem fillField_of_overflow {f : FieldInfo} {e : SizeOverflow} (h : f.words = .error e)
    (value : Binary64) : fillField f value = throw (.overflow e) := by
  rw [fillField, h]
  rfl

variable {g : α → Answer} {op : SessionOp}

theorem Session.step_ok {x : SessionM α} {a : α}
    (hact : op.act = g <$> x) (h : x s = .ok a s') : s.step op = (g a, s') := by
  have hrun : (g <$> x) s = .ok (g a) s' := by
    show EStateM.map g x s = _
    rw [EStateM.map, h]
  rw [step, hact, hrun]

theorem Session.step_error {x : SessionM α} {e : DeviceError}
    (hact : op.act = g <$> x) (h : x s = .error e s') : s.step op = (.failed e, s') := by
  have hrun : (g <$> x) s = .error e s' := by
    show EStateM.map g x s = _
    rw [EStateM.map, h]
  rw [step, hact, hrun]

namespace Shows

variable {m : FieldMap} {s : Session} {cache : Cache} {device : Device} {format : TexelFormat}
  {dims : List Nat} {storage : Bool}

/-! ## 4. Steps that leave the view alone -/

theorem writeField_eq (f : FieldInfo) (ws : List UInt32) :
    writeField f ws s = match f.bytes with
      | .error e => .error (.overflow e) s
      | .ok size =>
        if 4 * ws.length ≠ size then .error (.sizeMismatch f.name size (4 * ws.length)) s
        else match s.fieldBuffer f with
          | .error e => .error e s
          | .ok b => .ok () { s with device := s.device.writeBuffer b 0 (bytesOfWords ws) } := by
  simp only [writeField, size_bytesOfWords]
  cases f.bytes with
  | error e => rfl
  | ok size =>
    show (ite _ _ _ : SessionM Unit) s = ite _ _ _
    split
    · rfl
    · show EStateM.bind (ofExcept (s.fieldBuffer f)) _ s = _
      cases s.fieldBuffer f <;> rfl

/-- What is copied to a buffer that has been taken for it is read back. -/
theorem readBuffer_copy {taken : List (Usage × PooledBuffer)} {x : PooledBuffer}
    (h : Shows m ((.staging, x) :: taken) s) {data : Array UInt8} (hroom : data.size ≤ x.capacity)
    {d : Device} (hd : d.buffers = written s.device.buffers x.buffer data) :
    d.readBuffer x.buffer data.size = .ok data := by
  obtain ⟨b, hb, husage, hsize⟩ := h.custody.loans (.staging, x)
    (mem_append_right _ (mem_append_right _ (mem_cons_self ..)))
  have hget : d.buffers[x.buffer.index]? = some (b.write 0 data) := by
    rw [hd, Array.getElem?_modify, if_pos rfl, hb]
    rfl
  rw [Device.readBuffer, Device.buffer_of_getElem? hget]
  show (if (b.write 0 data).usage.isMappable then Except.ok ((b.write 0 data).read data.size) else _) = _
  rw [Buffer.usage_write, husage, Buffer.read_write (hsize ▸ hroom)]
  rfl

def endOf {α : Type} : EStateM.Result DeviceError Session α → Session
  | .ok _ s | .error _ s => s

theorem step_snd : (s.step op).2 = endOf (op.act s) := by
  rw [step]
  cases op.act s <;> rfl

/-- Whether it fails or not, a step leads to a session that is so related to the one before. -/
def Leads (R : Session → Session → Prop) {α : Type} (x : SessionM α) : Prop :=
  ∀ s, R s (endOf (x s))

section Leads

variable {R : Session → Session → Prop} {α β : Type}

theorem Leads.imp {R' : Session → Session → Prop} {x : SessionM α} (hx : Leads R x)
    (h : ∀ s s', R s s' → R' s s') : Leads R' x :=
  fun s => h _ _ (hx s)

theorem Leads.bind (htrans : ∀ ⦃s1 s2 s3⦄, R s1 s2 → R s2 s3 → R s1 s3) {x : SessionM α}
    {f : α → SessionM β} (hx : Leads R x) (hf : ∀ a, Leads R (f a)) : Leads R (x >>= f) := by
  intro s
  have h := hx s
  show R s (endOf (EStateM.bind x f s))
  rw [EStateM.bind]
  cases hrun : x s with
  | error e s' =>
    rw [hrun] at h
    exact h
  | ok a s' =>
    rw [hrun] at h
    exact htrans h (hf a s')

theorem Leads.mapM (hrefl : ∀ s, R s s) (htrans : ∀ ⦃s1 s2 s3⦄, R s1 s2 → R s2 s3 → R s1 s3)
    {f : α → SessionM β} (hf : ∀ a, Leads R (f a)) (xs : List α) : Leads R (xs.mapM f) := by
  induction xs with
  | nil => exact fun s => hrefl s
  | cons x xs ih =>
    rw [mapM_cons]
    exact (hf x).bind htrans fun _ => ih.bind htrans fun _ s => hrefl s

end Leads

def CacheReads (s : Session) : Prop :=
  ∀ code id, s.cache.modules.lookup code = some id →
    ∃ m, s.device.modules[id.index]? = some m ∧ Shader.reflect code = .ok m.reflection

/-- All that has changed are shaders, pipelines and the number of kernels. The modules of the cache
still tell what their texts do. -/
def Prepared (s s' : Session) : Prop :=
  (∃ cache device kernels, s' = { s with cache, device, kernels } ∧ device.buffers = s.device.buffers)
    ∧ (CacheReads s → CacheReads s')

theorem Prepared.refl (s : Session) : Prepared s s := ⟨⟨s.cache, s.device, s.kernels, rfl, rfl⟩, id⟩

theorem Prepared.trans {s1 s2 s3 : Session} (h : Prepared s1 s2) (h' : Prepared s2 s3) :
    Prepared s1 s3 := by
  refine ⟨?_, h'.2 ∘ h.2⟩
  obtain ⟨cache, device, kernels, rfl, hbuffers⟩ := h.1
  obtain ⟨cache', device', kernels', rfl, hbuffers'⟩ := h'.1
  exact ⟨cache', device', kernels', rfl, hbuffers'.trans hbuffers⟩

theorem Prepared.sameStore (h : Prepared s s') : SameStore s s' := by
  obtain ⟨cache, device, kernels, rfl, hbuffers⟩ := h.1
  exact ⟨hbuffers, rfl, rfl, rfl, rfl⟩

theorem prepared_module {code : String} {id : ModuleId}
    (h : s.cache.module s.device code = .ok (id, cache, device)) :
    Prepared s { s with cache, device } := by
  unfold Cache.module at h
  split at h
  · cases h
    exact ⟨⟨_, _, _, rfl, rfl⟩, fun hs => hs⟩
  · unfold Device.createModule at h
    split at h
    · cases h
    · rename_i reflection hread
      cases h
      refine ⟨⟨_, _, _, rfl, rfl⟩, fun hs code' id' hid => ?_⟩
      rw [lookup_cons] at hid
      split at hid
      · rename_i heq
        cases hid
        exact ⟨_, Array.getElem?_push_size, by rw [beq_iff_eq.1 heq]; exact hread⟩
      · obtain ⟨m, hm, hreads⟩ := hs code' id' hid
        exact ⟨m, getElem?_push_of_some hm, hreads⟩

theorem prepared_computePipeline {p : ComputePipeline} {id : PipelineId}
    (h : s.cache.computePipeline s.device p = .ok (id, cache, device)) :
    Prepared s { s with cache, device } := by
  unfold Cache.computePipeline at h
  split at h
  · cases h
    exact ⟨⟨_, _, _, rfl, rfl⟩, fun hs => hs⟩
  · unfold Device.createCompute at h
    cases hentry : s.device.checkEntry (p.label.getD "") p.module p.entry .compute with
    | error e =>
      simp only [hentry] at h
      cases h
    | ok u =>
      simp only [hentry] at h
      cases h
      exact ⟨⟨_, _, _, rfl, rfl⟩, fun hs => hs⟩

theorem prepared_pipelineOf (name : String) (index : Nat) (task : CompiledTask) :
    Leads Prepared (pipelineOf name index task) := by
  intro s
  show Prepared s (endOf (EStateM.bind (ofExcept (s.cache.module s.device task.shader.text)) _ s))
  cases hm : s.cache.module s.device task.shader.text with
  | error e => exact .refl s
  | ok x =>
    obtain ⟨module, cache, device⟩ := x
    let s1 : Session := { s with cache, device }
    have h1 : Prepared s s1 := prepared_module hm
    let pipeline : ComputePipeline := { label := s!"{name}_{index}_{task.fingerprint}", module, entry := task.reflection.entry }
    show Prepared s (endOf (EStateM.bind (ofExcept (cache.computePipeline device pipeline)) _ s1))
    cases hp : cache.computePipeline device pipeline with
    | error e => exact h1
    | ok x =>
      exact h1.trans (prepared_computePipeline hp)

section Kernel

variable {source : String} {scope : Scope} {templates : List (String × Value)}

theorem kernel_error {e : CompileError}
    (hc : compile source scope templates s.settings.compiler = .error e) :
    kernel source scope templates s = .error (.compile e) s := by
  rw [kernel, run_get, hc]
  rfl

theorem kernel_eq {c : CompiledKernel}
    (hc : compile source scope templates s.settings.compiler = .ok c) :
    kernel source scope templates s = (do
      let pipelines ← c.tasks.zipIdx.mapM fun x => pipelineOf c.kernel.name x.2 x.1
      modifyGet fun s => ({ serial := s.kernels, compiled := c, pipelines },
        { s with kernels := s.kernels + 1 }) : SessionM SessionKernel) s := by
  rw [kernel, run_get, hc]

end Kernel

theorem prepared_kernel (source : String) (scope : Scope) (templates : List (String × Value)) :
    Leads Prepared (kernel source scope templates) := by
  intro s
  cases hc : compile source scope templates s.settings.compiler with
  | error e =>
    rw [kernel_error hc]
    exact .refl s
  | ok c =>
    have hpipelines : Leads Prepared (c.tasks.zipIdx.mapM fun x => pipelineOf c.kernel.name x.2 x.1) :=
      Leads.mapM .refl (fun _ _ _ => .trans) (fun x : CompiledTask × Nat => prepared_pipelineOf c.kernel.name x.2 x.1) _
    rw [kernel_eq hc]
    exact hpipelines.bind (fun _ _ _ => .trans) (fun _ s => ⟨⟨s.cache, s.device, s.kernels + 1, rfl, rfl⟩, id⟩) s

theorem createTexture_eq
    {info : TextureInfo} (hinfo : info = { id := s.textures.size, name, dims, format, storage }) :
    createTexture name dims format storage s = if (dims.length ≠ 2 ∧ dims.length ≠ 3) ∨ dims.contains 0 then
        .error (.invalidShape name s!"textures have 2 or 3 positive dimensions, got {bracketed dims}") s
      else .ok info { s with textures := s.textures.push info, device := s.device.createTexture info } := by
  subst hinfo
  unfold createTexture
  split <;> rfl

theorem sameStore_createTexture :
    Leads SameStore (createTexture name dims format storage) := by
  intro s
  rw [createTexture_eq rfl]
  split <;> exact ⟨rfl, rfl, rfl, rfl, rfl⟩

theorem lookup_pending (h : Shows m [] s) (id : LaunchId) :
    m.pending.lookup id = (s.pending.lookup id).map Launch.ret := by
  rw [← h.pending]
  induction s.pending with
  | nil => rfl
  | cons p ps ih =>
    rw [map_cons, lookup_cons, lookup_cons]
    cases id == p.1
    · exact ih
    · rfl

end Shows

namespace Books

open Shows

variable {m : FieldMap} {s : Session} {op : SessionOp} {f : FieldInfo}

/-! ## 5. Operations -/

/-- The answer to an operation is one that the map allows, and the session shows the map after it.
-/
def Refines (m : FieldMap) (op : SessionOp) (s : Session) : Prop :=
  m.Allows op (s.step op).1 ∧ Books (m.after op (s.step op).1) [] (s.step op).2

theorem refines_field (h : Books m [] s) {shape : List UInt64} {elem : Ty} :
    Refines m (.field name shape elem) s := by
  have hrun := createField_eq (congrArg (FieldInfo.mk · name shape elem) h.size_fields.symm)
  rw [Refines, FieldMap.Allows]
  by_cases hbad : (shape.isEmpty || shape.contains 0) = true
  · rw [if_pos hbad] at hrun ⊢
    rw [Session.step_error rfl hrun]
    exact ⟨rfl, h⟩
  · rw [if_neg hbad] at hrun ⊢
    cases hsize : FieldInfo.bytes ⟨m.fields.length, name, shape, elem⟩ with
    | error e =>
      rw [hsize] at hrun
      rw [Session.step_error rfl hrun]
      exact ⟨rfl, h⟩
    | ok size =>
      rw [hsize] at hrun
      rw [Session.step_ok rfl hrun]
      exact ⟨rfl, h.createStored rfl hsize⟩

theorem refines_writing (h : Books m [] s) {ws : List UInt32}
    (hact : op.act = (fun _ => .done) <$> writeField f ws)
    (hallows : ∀ a, m.Allows op a ↔ a = m.answerToWrite f ws)
    (hdone : m.after op .done = { m with fields := m.fields.set f.id (f, ws) })
    (hfailed : ∀ e, m.after op (.failed e) = m) : Refines m op s := by
  have hrun := writeField_eq (s := s) f ws
  rw [Refines, hallows, FieldMap.answerToWrite]
  cases hbytes : f.bytes with
  | error e =>
    rw [hbytes] at hrun
    rw [step_error hact hrun, hfailed]
    exact ⟨rfl, h⟩
  | ok size =>
    rw [hbytes] at hrun
    dsimp only [FieldMap.answerSized] at hrun ⊢
    by_cases hsize : 4 * ws.length ≠ size
    · rw [if_pos hsize] at hrun ⊢
      rw [step_error hact hrun, hfailed]
      exact ⟨rfl, h⟩
    · rw [if_neg hsize] at hrun ⊢
      rcases h.fieldBuffer_cases f with ⟨st, hst, rfl, hb, hwords⟩ | ⟨hb, hwords⟩
      · rw [hb] at hrun
        rw [step_ok hact hrun, hwords, hdone]
        exact ⟨rfl, h.writeStored hst (by rw [hbytes, size_bytesOfWords, not_not.1 hsize])⟩
      · rw [hb] at hrun
        rw [step_error hact hrun, hwords, hfailed]
        exact ⟨rfl, h⟩

/-- A field that the map knows is stored, so its size is in range. -/
theorem bytes_of_words? (h : Books m [] s) (hwords : (m.words? f).isSome) :
    ∃ size, f.bytes = .ok size := by
  rcases h.fieldBuffer_cases f with ⟨st, hst, rfl, -⟩ | ⟨-, hnone⟩
  · obtain ⟨b, -, -, hsize⟩ := h.stored hst
    exact ⟨_, hsize⟩
  · rw [hnone] at hwords
    cases hwords

theorem readField_ok (h : Books m [] s) (hwords : (m.words? f).isSome) {width size : Nat}
    (hsize : f.bytes = .ok size) (hwidth : ¬ (width = 0 ∨ size % width ≠ 0)) :
    ∃ bytes s', readField f width s = .ok (cut width bytes) s' ∧ m.words? f = some (wordsOfBytes bytes)
      ∧ Books m [] s' := by
  obtain ⟨x, s1, hx, h1, hroom, hsame⟩ := lends_acquire .staging size _ _ _ h
  rcases h1.fieldBuffer_cases f with ⟨st, hst, rfl, hb1, hcontents⟩ | ⟨-, hnone⟩
  · obtain ⟨b, hb, -, hb'⟩ := h1.stored hst
    obtain rfl : size = b.size := Except.ok.inj (hsize.symm.trans hb')
    have hbuffer : s.fieldBuffer st.info = .ok st.buffer := by
      rw [hsame.fields] at hst
      simp [fieldBuffer, hst]
    have hsrc : (s1.device.buffer st.buffer).read b.size = b.bytes := by
      rw [Device.buffer_of_getElem? hb]
      exact Array.extract_size
    let d : Device := { s1.device with
      buffers := written s1.device.buffers x.buffer b.bytes, submissions := s1.device.submissions + 1 }
    have hsubmit : s1.device.submit [.copy st.buffer x.buffer b.size] = (.ok (), d) := by
      rw [Device.submit_copy, hsrc]
    have h2 : Books m [(.staging, x)] { s1 with device := d.poll } := h1.write (mem_cons_self ..) (by simp) rfl
    have hread : d.poll.readBuffer x.buffer b.size = .ok b.bytes := h1.readBuffer_copy hroom rfl
    refine ⟨b.bytes, _, ?_, ?_, h2.giveBack⟩
    · unfold readField
      show EStateM.bind (ofExcept (s.fieldBuffer st.info)) _ s = _
      rw [hbuffer]
      show EStateM.bind (sized st.info.bytes) _ s = _
      rw [hsize]
      show (if width = 0 ∨ b.size % width ≠ 0 then _ else _ : SessionM _) s = _
      rw [if_neg hwidth]
      refine (run_bind hx).trans ?_
      refine (run_bind (run_submit hsubmit)).trans ?_
      show EStateM.bind (ofExcept (d.poll.readBuffer x.buffer b.size)) _ _ = _
      rw [hread]
      rfl
    · rw [hcontents, contents, Array.getD_eq_getD_getElem?, hb]
      rfl
  · rw [hnone] at hwords
    cases hwords

theorem readWords_ok (h : Books m [] s) (hwords : (m.words? f).isSome) :
    ∃ words s', readWords f s = .ok words s' ∧ m.words? f = some words ∧ Books m [] s' := by
  obtain ⟨size, hsize⟩ := h.bytes_of_words? hwords
  have hwidth : ¬ (4 = 0 ∨ size % 4 ≠ 0) := by
    obtain ⟨-, rfl⟩ := FieldInfo.bytes_ok hsize
    omega
  obtain ⟨bytes, s', hrun, hbytes, h'⟩ := h.readField_ok hwords hsize hwidth
  exact ⟨_, s', run_bind hrun, hbytes, h'⟩

theorem refines_read (h : Books m [] s) : Refines m (.read f) s := by
  cases hwords : m.words? f with
  | none =>
    have hrun : readWords f s = .error (.unknownResource f.name) s := by
      rcases h.fieldBuffer_cases f with ⟨st, -, -, -, hsome⟩ | ⟨hb, -⟩
      · rw [hwords] at hsome
        cases hsome
      · unfold readWords readField
        show EStateM.bind (EStateM.bind (ofExcept (s.fieldBuffer f)) _) _ s = _
        rw [hb]
        rfl
    rw [Refines, Session.step_error rfl hrun]
    refine ⟨?_, h⟩
    rw [FieldMap.Allows, hwords]
    rfl
  | some ws =>
    obtain ⟨words, s', hread, hsame, h'⟩ := h.readWords_ok (f := f) (hwords ▸ rfl)
    rw [Refines, Session.step_ok rfl hread]
    refine ⟨?_, h'⟩
    rw [FieldMap.Allows, hsame]
    rfl

theorem refines_of_sameStore {x : SessionM α} (h : Books m [] s) (hx : Leads SameStore x)
    (hact : op.act = g <$> x) (hafter : ∀ a, m.after op a = m) (hok : ∀ a, m.Allows op (g a))
    (hfailed : ∀ e, m.Allows op (.failed e)) : Refines m op s := by
  have hs := hx s
  rw [Refines, hafter]
  cases hrun : x s with
  | error e s' =>
    rw [hrun] at hs
    rw [step_error hact hrun]
    exact ⟨hfailed e, h.congr hs⟩
  | ok a s' =>
    rw [hrun] at hs
    rw [step_ok hact hrun]
    exact ⟨hok a, h.congr hs⟩

theorem refines_launch (h : Books m [] s) {k : SessionKernel} {args : List Value} :
    Refines m (.launch k args) s := by
  rcases h.launch_cases k args with ⟨e, -, hrun⟩ | ⟨words, bufs, s1, -, -, -, -,
    ⟨e, s', -, hrun, h'⟩ | ⟨cs, s', l, -, hrun, -, -, -, h'⟩⟩
  · rw [Refines, Session.step_error rfl hrun]
    exact ⟨.inr ⟨e, rfl⟩, h⟩
  · rw [Refines, Session.step_error rfl hrun]
    exact ⟨.inr ⟨e, rfl⟩, h'⟩
  · rw [Refines, Session.step_ok rfl hrun]
    exact ⟨.inl rfl, h'⟩

theorem refines_wait (h : Books m [] s) {id : LaunchId} : Refines m (.wait id) s := by
  have hlookup := h.lookup_pending id
  cases hl : s.pending.lookup id with
  | none =>
    have hrun : wait id s = .error .notPending s := run_bind_error (takePending_none hl)
    rw [hl] at hlookup
    rw [Refines, Session.step_error rfl hrun]
    refine ⟨?_, h⟩
    rw [FieldMap.Allows, hlookup]
    rfl
  | some l =>
    obtain ⟨hsettled, htake, h1⟩ := h.takePending hl
    let s1 : Session := { s with pending := s.pending.filter (·.1 != id) }
    rw [← append_nil l.buffers.toList] at h1
    have hpoll : SameStore s1 { s1 with device := s1.device.poll.poll } := ⟨rfl, rfl, rfl, rfl, rfl⟩
    obtain ⟨s', hrelease, h', -⟩ := (h1.congr hpoll).release
    have hresult : ({ s1 with device := s1.device.poll.poll } : Session).result l = .ok (zeroResult l.ret) :=
      result_of_settled hsettled
    have hrun : wait id s = .ok (zeroResult l.ret) s' := by
      refine (run_bind htake).trans ?_
      show EStateM.bind (Session.release l.buffers) (fun _ => ofExcept (Session.result _ l)) _ = _
      rw [EStateM.bind, hrelease, hresult]
      rfl
    rw [hl] at hlookup
    rw [Refines, Session.step_ok rfl hrun]
    refine ⟨?_, h'⟩
    rw [FieldMap.Allows, hlookup]
    rfl

theorem refines_discard (h : Books m [] s) {id : LaunchId} : Refines m (.discard id) s := by
  have hlookup := h.lookup_pending id
  cases hl : s.pending.lookup id with
  | none =>
    have hrun : discard id s = .error .notPending s := run_bind_error (takePending_none hl)
    rw [hl] at hlookup
    rw [Refines, Session.step_error rfl hrun]
    refine ⟨?_, h⟩
    rw [FieldMap.Allows, hlookup]
    rfl
  | some l =>
    obtain ⟨-, htake, h1⟩ := h.takePending hl
    rw [← append_nil l.buffers.toList] at h1
    obtain ⟨s', hrelease, h', -⟩ := h1.release
    have hrun : discard id s = .ok () s' := (run_bind htake).trans hrelease
    rw [hl] at hlookup
    rw [Refines, Session.step_ok rfl hrun]
    refine ⟨?_, h'⟩
    rw [FieldMap.Allows, hlookup]
    rfl

/-! ## 6. Runs -/

theorem refines_step (h : Books m [] s) (op : SessionOp) : Refines m op s := by
  cases op with
  | field name shape elem => exact h.refines_field
  | texture name dims format storage =>
    exact h.refines_of_sameStore sameStore_createTexture rfl (fun _ => rfl) (fun t => .inl ⟨t, rfl⟩)
      fun e => .inr ⟨e, rfl⟩
  | write f ws => exact h.refines_writing rfl (fun _ => .rfl) rfl fun _ => rfl
  | fill f value =>
    cases hwords : f.words with
    | error e =>
      have hrun : Session.fillField f value s = .error (.overflow e) s :=
        congrFun (fillField_of_overflow hwords value) s
      rw [Refines, FieldMap.Allows, hwords, Session.step_error rfl hrun]
      exact ⟨rfl, h⟩
    | ok n =>
      have hact := congrArg (fun x => (fun _ => Answer.done) <$> x) (fillField_of_words hwords value)
      refine h.refines_writing hact (fun a => ?_) rfl fun _ => rfl
      rw [FieldMap.Allows, hwords]
      rfl
  | read f => exact h.refines_read
  | kernel source scope templates =>
    have hkernel := (prepared_kernel source scope templates).imp fun _ _ => Prepared.sameStore
    exact h.refines_of_sameStore hkernel rfl (fun _ => rfl) (fun k => .inl ⟨k, rfl⟩) fun e => .inr ⟨e, rfl⟩
  | launch k args => exact h.refines_launch
  | wait id => exact h.refines_wait
  | discard id => exact h.refines_discard
  | tick now => exact ⟨rfl, h.congr ⟨rfl, rfl, rfl, rfl, rfl⟩⟩

theorem refines_run (h : Books m [] s) (ops : List SessionOp) :
    ∃ m', FieldMap.Explains m ops (s.run ops).1 m' ∧ Books m' [] (s.run ops).2 := by
  induction ops generalizing m s with
  | nil => exact ⟨m, .nil m, h⟩
  | cons op ops ih =>
    obtain ⟨hallows, h1⟩ := h.refines_step op
    obtain ⟨m', hexplains, h'⟩ := ih h1
    exact ⟨m', .cons hallows hexplains, h'⟩

end Books

/-- From the start of a session on, the answers to all operations are those of a map from fields to
words. -/
theorem session_refines_fieldMap (settings : Settings) (clock : Nat) (ops : List SessionOp) :
    ∃ m, FieldMap.Explains {} ops (({ settings, clock } : Session).run ops).1 m
      ∧ Shows m [] (({ settings, clock } : Session).run ops).2 :=
  have ⟨m, hexplains, h⟩ := (Books.start settings clock).refines_run ops
  ⟨m, hexplains, h.toShows⟩

end ArrayKernel
