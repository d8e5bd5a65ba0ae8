import ArrayKernel.Proofs.Sessions

/-!
# What stays in a session

No operation takes away a field or a texture that an answer has spoken of, and a launch is pending
until somebody waits for it or gives it up.
-/

namespace ArrayKernel

open Number List Session

variable {s s' s₁ s₂ s₃ : Session} {f : FieldInfo} {α : Type} {op : SessionOp} {id : LaunchId}
  {m : FieldMap} {ops : List SessionOp} {x : SessionM α} {g : α → Answer}

/-! ## 1. Fields and textures -/

structure Grows (s s' : Session) : Prop where
  fields : ∀ (i : Nat) (st : StoredField), s.fields[i]? = some st → s'.fields[i]? = some st
  textures : ∀ (i : Nat) (t : TextureInfo), s.textures[i]? = some t → s'.textures[i]? = some t

theorem Grows.refl (s : Session) : Grows s s := ⟨fun _ _ => id, fun _ _ => id⟩

theorem Grows.trans (h : Grows s₁ s₂) (h' : Grows s₂ s₃) : Grows s₁ s₃ :=
  ⟨fun i st hst => h'.fields i st (h.fields i st hst), fun i t ht => h'.textures i t (h.textures i t ht)⟩

namespace Shows

theorem SameResources.grows (h : SameResources s s') : Grows s s' := by
  constructor
  · rw [h.fields]
    exact fun _ _ => id
  · rw [h.textures]
    exact fun _ _ => id

theorem Prepared.grows (h : Prepared s s') : Grows s s' := by
  obtain ⟨cache, device, kernels, rfl, -⟩ := h.1
  exact ⟨fun _ _ => id, fun _ _ => id⟩

section Steps

variable {α β : Type} {commands : List Command} {d : Device}

theorem Leads.map {R : Session → Session → Prop} {x : SessionM α} (hx : Leads R x) (f : α → β) :
    Leads R (f <$> x) := by
  intro s
  have h := hx s
  show R s (endOf (EStateM.map f x s))
  rw [EStateM.map]
  cases hrun : x s <;> rw [hrun] at h <;> exact h

/-- All that has changed are buffers: which of them are free, and what the device has. -/
def OnlyBuffers (s s' : Session) : Prop :=
  ∃ pools device, s' = { s with pools, device } ∧ device.modules = s.device.modules

theorem OnlyBuffers.refl (s : Session) : OnlyBuffers s s := ⟨s.pools, s.device, rfl, rfl⟩

theorem OnlyBuffers.trans (h : OnlyBuffers s₁ s₂) (h' : OnlyBuffers s₂ s₃) : OnlyBuffers s₁ s₃ := by
  obtain ⟨pools, device, rfl, hmodules⟩ := h
  obtain ⟨pools', device', rfl, hmodules'⟩ := h'
  exact ⟨pools', device', rfl, hmodules'.trans hmodules⟩

abbrev Local (x : SessionM α) : Prop := Leads OnlyBuffers x

theorem Local.bind {x : SessionM α} {f : α → SessionM β} (hx : Local x) (hf : ∀ a, Local (f a)) :
    Local (x >>= f) :=
  Leads.bind (fun _ _ _ => .trans) hx hf

theorem local_pure (a : α) : Local (pure a) := .refl

theorem local_throw {e : DeviceError} : Local (throw e : SessionM α) := .refl

theorem local_get : Local (get : SessionM Session) := .refl

theorem local_ofExcept {x : Except DeviceError α} : Local (ofExcept x) := by
  cases x with
  | ok a => exact local_pure a
  | error e => exact local_throw

theorem local_writeBuffer (id : BufferId) (offset : Nat) (data : Array UInt8) :
    Local (onDevice (·.writeBuffer id offset data)) := fun s => ⟨s.pools, _, rfl, rfl⟩

theorem local_poll : Local (onDevice Device.poll) := fun s => ⟨s.pools, _, rfl, rfl⟩

theorem modules_get {p : Pool} {size : Nat} : (p.get d size).2.2.modules = d.modules := by
  unfold Pool.get
  dsimp only
  split <;> rfl

theorem local_acquire (usage : Usage) (size : Nat) : Local (acquire usage size) := fun _ =>
  ⟨_, _, rfl, modules_get⟩

theorem local_giveBack (usage : Usage) (b : PooledBuffer) : Local (giveBack usage b) := fun s =>
  ⟨_, s.device, rfl, rfl⟩

theorem modules_submit : (d.submit commands).2.modules = d.modules := by
  induction commands generalizing d with
  | nil => rfl
  | cons c cs ih =>
    unfold Device.submit
    split
    · rename_i d' hexecute
      rw [ih]
      unfold Device.execute at hexecute
      split at hexecute
      · split at hexecute
        · cases hexecute
        · cases hexecute
          rfl
      · cases hexecute
        rfl
    · rfl

theorem local_submit : Local (submit commands) := fun s =>
  ⟨s.pools, _, rfl, modules_submit⟩

theorem local_writeField (f : FieldInfo) (words : List UInt32) : Local (writeField f words) := by
  refine local_ofExcept.bind fun size => ?_
  split
  · exact local_throw
  · exact local_get.bind fun s => local_ofExcept.bind fun b => local_writeBuffer _ _ _

theorem local_fillField (f : FieldInfo) (value : Binary64) : Local (fillField f value) :=
  local_ofExcept.bind fun _ => local_writeField f _

theorem local_readField (f : FieldInfo) (width : Nat) : Local (readField f width) := by
  refine local_get.bind fun s => local_ofExcept.bind fun b => local_ofExcept.bind fun size => ?_
  split
  · exact local_throw
  · refine (local_acquire _ _).bind fun staging => local_submit.bind fun outcome => local_poll.bind fun _ => ?_
    have hend : ∀ bytes : Except DeviceError (Array UInt8), Local (do
        giveBack .staging staging
        return cut width (← ofExcept bytes)) := fun bytes =>
      (local_giveBack _ _).bind fun _ => local_ofExcept.bind fun _ => local_pure _
    cases outcome with
    | ok u => exact .bind (local_get.bind fun s => local_pure _) hend
    | error e => exact .bind (local_pure _) hend

/-- What holds between two sessions if buffers are taken, written to and given back. -/
structure Loaning (R : Session → Session → Prop) : Prop where
  refl : ∀ s, R s s
  trans : ∀ ⦃s₁ s₂ s₃⦄, R s₁ s₂ → R s₂ s₃ → R s₁ s₃
  acquire : ∀ usage size, Leads R (acquire usage size)
  write : ∀ id offset data, Leads R (onDevice (·.writeBuffer id offset data))
  giveBack : ∀ usage b, Leads R (giveBack usage b)

namespace Loaning

variable {R : Session → Session → Prop} (h : Loaning R)
include h

theorem release (buffers : LaunchBuffers) : Leads R (release buffers) := by
  unfold Session.release
  generalize buffers.toList = xs
  induction xs with
  | nil => exact h.refl
  | cons x xs ih => exact (h.giveBack x.1 x.2).bind h.trans fun _ => ih

theorem acquireWith (words : List UInt32) : Leads R (acquireWith words) :=
  (h.acquire _ _).bind h.trans fun _ => (h.write _ _ _).bind h.trans fun _ => h.refl

theorem optional {step : SessionM α} (hstep : Leads R step) (c : Prop) [Decidable c]
    {f : Option α → SessionM β} (hf : ∀ o, Leads R (f o)) :
    Leads R (if c then pure none >>= f else (some <$> step) >>= f : SessionM β) := by
  split
  · exact .bind h.trans h.refl hf
  · exact .bind h.trans (.map hstep some) hf

theorem acquireAll (k : IR.Kernel) (words : List UInt32) : Leads R (acquireAll k words) := by
  refine h.optional (h.acquireWith _) _ fun args => ?_
  refine h.optional (h.acquire _ _) _ fun rets => ?_
  refine h.optional (h.acquire _ _) _ fun staging => ?_
  exact h.optional (h.acquireWith _) _ fun shared => h.refl

end Loaning

theorem loaning_onlyBuffers : Loaning OnlyBuffers :=
  ⟨.refl, fun _ _ _ => .trans, local_acquire, local_writeBuffer, local_giveBack⟩

theorem local_release {buffers : LaunchBuffers} : Local (release buffers) :=
  loaning_onlyBuffers.release buffers

structure SameAssets (s s' : Session) : Prop extends SameResources s s' where
  settings : s'.settings = s.settings
  cache : s'.cache = s.cache
  modules : s'.device.modules = s.device.modules

theorem SameAssets.trans (h : SameAssets s₁ s₂) (h' : SameAssets s₂ s₃) : SameAssets s₁ s₃ :=
  ⟨⟨h'.fields.trans h.fields, h'.textures.trans h.textures⟩, h'.settings.trans h.settings,
    h'.cache.trans h.cache, h'.modules.trans h.modules⟩

/-- Nothing but launches has been added. -/
structure Launching (s s' : Session) : Prop where
  assets : SameAssets s s'
  pending : s.pending <:+ s'.pending

theorem Launching.trans (h : Launching s₁ s₂) (h' : Launching s₂ s₃) : Launching s₁ s₃ :=
  ⟨h.assets.trans h'.assets, h.pending.trans h'.pending⟩

theorem OnlyBuffers.launching (h : OnlyBuffers s s') : Launching s s' := by
  obtain ⟨pools, device, rfl, hmodules⟩ := h
  exact ⟨⟨⟨rfl, rfl⟩, rfl, rfl, hmodules⟩, suffix_refl _⟩

theorem Local.launching (hx : Local x) : Leads Launching x :=
  hx.imp fun _ _ => OnlyBuffers.launching

theorem launching_launch (k : SessionKernel) (args : List Value) :
    Leads Launching (launch k args) := by
  have htrans : ∀ ⦃s₁ s₂ s₃⦄, Launching s₁ s₂ → Launching s₂ s₃ → Launching s₁ s₃ := fun _ _ _ => .trans
  refine local_get.launching.bind htrans fun s => local_ofExcept.launching.bind htrans fun words => ?_
  refine .bind htrans (fun _ => ⟨⟨⟨rfl, rfl⟩, rfl, rfl, rfl⟩, suffix_refl _⟩) fun _ => ?_
  refine Leads.bind htrans (Local.launching (loaning_onlyBuffers.acquireAll _ _)) fun buffers =>
    local_get.launching.bind htrans fun s => ?_
  split
  · exact (local_release.bind fun _ => local_throw).launching
  · exact local_submit.launching.bind htrans fun outcome _ => ⟨⟨⟨rfl, rfl⟩, rfl, rfl, rfl⟩, suffix_cons _ _⟩

abbrev Quiet (x : SessionM α) : Prop := Leads SameAssets x

theorem Local.quiet (hx : Local x) : Quiet x := hx.launching.imp fun _ _ => Launching.assets

theorem Quiet.bind {x : SessionM α} {f : α → SessionM β} (hx : Quiet x) (hf : ∀ a, Quiet (f a)) :
    Quiet (x >>= f) :=
  Leads.bind (fun _ _ _ => .trans) hx hf

theorem quiet_takePending {id : LaunchId} : Quiet (takePending id) := by
  refine local_get.quiet.bind fun s => ?_
  split
  · exact local_throw.quiet
  · exact .bind (fun _ => ⟨⟨rfl, rfl⟩, rfl, rfl, rfl⟩) fun _ => (local_pure _).quiet

theorem quiet_wait (id : LaunchId) : Quiet (wait id) := by
  refine quiet_takePending.bind fun l => Local.quiet ?_
  refine local_poll.bind fun _ => local_poll.bind fun _ => local_get.bind fun _ => ?_
  exact local_release.bind fun _ => local_ofExcept

theorem quiet_discard (id : LaunchId) : Quiet (discard id) :=
  quiet_takePending.bind fun _ => local_release.quiet

end Steps

end Shows

open Shows

/-! ## 2. Answers that speak of resources -/

def Session.stored (s : Session) : IR.Resources where
  field f := ∃ b, s.fieldBuffer f = .ok b
  texture t := s.textures[t.id]? = some t

def made (as : List Answer) : IR.Resources where
  field f := .field f ∈ as
  texture t := .texture t ∈ as

theorem fieldBuffer_of_getElem? {b : BufferId} (h : s.fields[f.id]? = some ⟨f, b⟩) :
    s.fieldBuffer f = .ok b := by
  rw [fieldBuffer, h]
  exact if_pos rfl

theorem Grows.field (h : Grows s s') (hf : s.stored.field f) : s'.stored.field f := by
  obtain ⟨b, hb⟩ := hf
  unfold fieldBuffer at hb
  split at hb
  · rename_i st hst
    split at hb
    · rename_i hinfo
      subst hinfo
      exact ⟨st.buffer, fieldBuffer_of_getElem? (h.fields _ _ hst)⟩
    · cases hb
  · cases hb

/-- Resources are still there after an answer, and so is one that the answer speaks of. -/
structure Stays (s : Session) (a : Answer) (s' : Session) : Prop where
  grows : Grows s s'
  field : ∀ f, a = .field f → s'.stored.field f
  texture : ∀ t, a = .texture t → s'.stored.texture t

def Answer.isResource : Answer → Bool
  | .field _ | .texture _ => true
  | _ => false

theorem stays_act (hact : op.act = g <$> x) (hx : Leads Grows x)
    (hg : ∀ a, (g a).isResource = false) (s : Session) : Stays s (s.step op).1 (s.step op).2 := by
  have h := hx s
  cases hrun : x s with
  | error e s' =>
    rw [hrun] at h
    rw [step_error hact hrun]
    exact ⟨h, nofun, nofun⟩
  | ok a s' =>
    rw [hrun] at h
    rw [step_ok hact hrun]
    have hother : ∀ b, g a = b → b.isResource = false := fun b hb => hb ▸ hg a
    refine ⟨h, fun f hf => ?_, fun t ht => ?_⟩
    · cases hother _ hf
    · cases hother _ ht

theorem stays_quiet (hact : op.act = g <$> x) (hx : Quiet x)
    (hg : ∀ a, (g a).isResource = false) (s : Session) : Stays s (s.step op).1 (s.step op).2 :=
  stays_act hact (hx.imp fun _ _ h => h.toSameResources.grows) hg s

theorem stays_field {name : String} {shape : List UInt64} {elem : Ty} :
    Stays s (s.step (.field name shape elem)).1 (s.step (.field name shape elem)).2 := by
  have hrun : createField name shape elem s = _ := Books.createField_eq rfl
  split at hrun
  · rw [step_error rfl hrun]
    exact ⟨.refl s, nofun, nofun⟩
  split at hrun
  · rw [step_error rfl hrun]
    exact ⟨.refl s, nofun, nofun⟩
  · rw [step_ok rfl hrun]
    refine ⟨⟨fun i st hst => getElem?_push_of_some hst, fun _ _ => id⟩, ?_, nofun⟩
    rintro _ ⟨⟩
    exact ⟨_, fieldBuffer_of_getElem? Array.getElem?_push_size⟩

theorem stays_texture {name : String} {dims : List Nat} {format : TexelFormat} {storage : Bool} :
    Stays s (s.step (.texture name dims format storage)).1 (s.step (.texture name dims format storage)).2 := by
  have hrun : createTexture name dims format storage s = _ := createTexture_eq rfl
  split at hrun
  · rw [step_error rfl hrun]
    exact ⟨.refl s, nofun, nofun⟩
  · rw [step_ok rfl hrun]
    refine ⟨⟨fun _ _ => id, fun i t ht => getElem?_push_of_some ht⟩, nofun, ?_⟩
    rintro _ ⟨⟩
    exact Array.getElem?_push_size

theorem stays_step (s : Session) (op : SessionOp) : Stays s (s.step op).1 (s.step op).2 := by
  cases op with
  | field name shape elem => exact stays_field
  | texture name dims format storage => exact stays_texture
  | write f words => exact stays_quiet rfl (local_writeField f words).quiet (fun _ => rfl) s
  | fill f value => exact stays_quiet rfl (local_fillField f value).quiet (fun _ => rfl) s
  | read f => exact stays_quiet rfl ((local_readField f 4).bind fun _ => local_pure _).quiet (fun _ => rfl) s
  | kernel source scope templates =>
    exact stays_act rfl ((prepared_kernel source scope templates).imp fun _ _ => Prepared.grows) (fun _ => rfl) s
  | launch k args => exact stays_quiet rfl ((launching_launch k args).imp fun _ _ => Launching.assets) (fun _ => rfl) s
  | wait id => exact stays_quiet rfl (quiet_wait id) (fun _ => rfl) s
  | discard id => exact stays_quiet rfl (quiet_discard id) (fun _ => rfl) s
  | tick now => exact ⟨⟨fun _ _ => id, fun _ _ => id⟩, nofun, nofun⟩

theorem stays_run (s : Session) (ops : List SessionOp) : Grows s (s.run ops).2
    ∧ (∀ f, (made (s.run ops).1).field f → (s.run ops).2.stored.field f)
    ∧ ∀ t, (made (s.run ops).1).texture t → (s.run ops).2.stored.texture t := by
  induction ops generalizing s with
  | nil => exact ⟨.refl s, nofun, nofun⟩
  | cons op ops ih =>
    have hstep := stays_step s op
    obtain ⟨hgrows, hfield, htexture⟩ := ih (s.step op).2
    refine ⟨hstep.grows.trans hgrows, fun f hf => ?_, fun t ht => ?_⟩
    · rcases mem_cons.1 hf with hf | hf
      · exact hgrows.field (hstep.field f hf.symm)
      · exact hfield f hf
    · rcases mem_cons.1 ht with ht | ht
      · exact hgrows.textures _ _ (hstep.texture t ht.symm)
      · exact htexture t ht

/-! ## 3. Pending launches -/

def SessionOp.Spares (id : LaunchId) : SessionOp → Prop
  | .wait id' | .discard id' => id' ≠ id
  | _ => True

theorem lookup_filter_of_ne {id' : LaunchId} (h : id' ≠ id) (xs : List (LaunchId × Option Ty)) :
    (xs.filter (·.1 != id')).lookup id = xs.lookup id := by
  induction xs with
  | nil => rfl
  | cons x xs ih =>
    by_cases hx : x.1 = id'
    · have hne : (id == x.1) = false := beq_eq_false_iff_ne.2 fun heq => h (hx.symm.trans heq.symm)
      rw [filter_cons_of_neg (by simpa using hx), ih, lookup_cons, hne]
    · rw [filter_cons_of_pos (by simpa using hx), lookup_cons, lookup_cons, ih]

theorem FieldMap.lookup_after (h : (m.pending.lookup id).isSome)
    (hop : op.Spares id) (a : Answer) : ((m.after op a).pending.lookup id).isSome := by
  unfold FieldMap.after
  split
  · exact h
  · exact h
  · exact h
  · rename_i k args id'
    rw [lookup_cons]
    split
    · rfl
    · exact h
  · rw [lookup_filter_of_ne hop]
    exact h
  · rw [lookup_filter_of_ne hop]
    exact h
  · exact h

theorem FieldMap.Explains.lookup_pending {m' : FieldMap} {as : List Answer}
    (h : FieldMap.Explains m ops as m') (hops : ∀ op ∈ ops, op.Spares id)
    (hid : (m.pending.lookup id).isSome) : (m'.pending.lookup id).isSome := by
  induction h with
  | nil m => exact hid
  | cons hallows _ ih =>
    obtain ⟨hop, hops⟩ := forall_mem_cons.1 hops
    exact ih hops (lookup_after hid hop _)

theorem wait_of_pending (h : Books m [] s) (hops : ∀ op ∈ ops, op.Spares id)
    (hid : (m.pending.lookup id).isSome) :
    ∃ ret, ((s.run ops).2.step (.wait id)).1 = .result (zeroResult ret) := by
  obtain ⟨m', hexplains, h'⟩ := h.refines_run ops
  obtain ⟨ret, hret⟩ := Option.isSome_iff_exists.1 (hexplains.lookup_pending hops hid)
  obtain ⟨hanswer, -⟩ := h'.refines_wait
  rw [FieldMap.Allows, hret] at hanswer
  exact ⟨ret, hanswer⟩

end ArrayKernel
