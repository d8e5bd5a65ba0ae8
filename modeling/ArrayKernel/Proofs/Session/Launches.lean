import ArrayKernel.Proofs.Session.FieldMap

/-!
# Launches and their results

A launch takes buffers for what its kernel needs and submits dispatches that run to their end, where
the result is copied.
-/

namespace ArrayKernel

open Number List Session

variable {cs : List Command} {bufs : LaunchBuffers} {k : SessionKernel}

/-! ## 1. Lists of results -/

theorem exists_of_mem_mapM {ε α β : Type} {f : α → Except ε β} {xs : List α} {ys : List β}
    (h : xs.mapM f = .ok ys) {y : β} (hy : y ∈ ys) : ∃ x ∈ xs, f x = .ok y := by
  induction xs generalizing ys with
  | nil =>
    cases h
    cases hy
  | cons x xs ih =>
    rw [mapM_cons] at h
    cases hx : f x with
    | error e =>
      rw [hx] at h
      cases h
    | ok z =>
      cases hxs : xs.mapM f with
      | error e =>
        rw [hx, hxs] at h
        cases h
      | ok zs =>
        rw [hx, hxs] at h
        cases h
        rcases mem_cons.1 hy with rfl | hy
        · exact ⟨x, mem_cons_self .., hx⟩
        · obtain ⟨w, hw, hfw⟩ := ih hxs hy
          exact ⟨w, mem_cons_of_mem _ hw, hfw⟩

/-! ## 2. Submissions -/

def Usable (bs : Array Buffer) : Bound → Prop
  | .buffer id => ∃ b, bs[id.index]? = some b ∧ b.usage.isStorage
  | _ => True

def IsDispatch (bs : Array Buffer) (c : Command) : Prop :=
  ∃ label pipeline bound workgroups, c = .dispatch label pipeline bound workgroups ∧ ∀ x ∈ bound, Usable bs x

/-- The copy of a result to where it is read from, if there is one. -/
def LaunchBuffers.resultCopy (bufs : LaunchBuffers) (bytes : Nat) : List Command :=
  match bufs.rets, bufs.staging with
  | some rets, some staging => [.copy rets.buffer staging.buffer bytes]
  | _, _ => []

namespace Device

variable {d : Device}

theorem unusable?_eq_none {bound : List Bound} (h : ∀ x ∈ bound, Usable d.buffers x) :
    d.unusable? bound = none := by
  rw [unusable?, findSome?_eq_none_iff]
  intro x hx
  cases x with
  | buffer id =>
    obtain ⟨b, hb, husage⟩ := h _ hx
    show (if (d.buffer id).usage.isStorage then none else _) = none
    rw [buffer_of_getElem? hb, if_pos husage]
  | texture id | sampler id => rfl

theorem submit_dispatches (h : ∀ c ∈ cs, IsDispatch d.buffers c) {rest : List Command} :
    ∃ d' : Device, d.submit (cs ++ rest) = d'.submit rest ∧ d'.buffers = d.buffers := by
  induction cs generalizing d with
  | nil => exact ⟨d, rfl, rfl⟩
  | cons c cs ih =>
    obtain ⟨⟨label, pipeline, bound, workgroups, rfl, hbound⟩, hcs⟩ := forall_mem_cons.1 h
    let d1 : Device := { d with dispatches := d.dispatches.push { label, workgroups, bindings := bound.length } }
    obtain ⟨d', hd', hbuffers⟩ := ih (d := d1) hcs
    refine ⟨d', ?_, hbuffers⟩
    rw [← hd', cons_append, submit, execute, unusable?_eq_none hbound]

theorem submit_copy {src dst : BufferId} {size : Nat} :
    d.submit [.copy src dst size]
      = (.ok (), { d with
          buffers := written d.buffers dst ((d.buffer src).read size), submissions := d.submissions + 1 }) :=
  rfl

end Device

namespace Shows

variable {m : FieldMap} {taken : List (Usage × PooledBuffer)} {s : Session} {u : Usage}
  {b : PooledBuffer} {x : Bound} {args : List Value}

theorem run_submit {outcome : Except DeviceError Unit} {d : Device}
    (h : s.device.submit cs = (outcome, d)) : submit cs s = .ok outcome { s with device := d } := by
  show EStateM.Result.ok (s.device.submit cs).1 { s with device := (s.device.submit cs).2 } = _
  rw [h]

theorem usable_taken (h : Shows m taken s) (hb : (u, b) ∈ taken) (hu : u.isStorage) :
    Usable s.device.buffers (.buffer b.buffer) := by
  obtain ⟨c, hc, husage, -⟩ := h.custody.loans _ (mem_append_right _ (mem_append_right _ hb))
  exact ⟨c, hc, by rw [husage]; exact hu⟩

theorem usable_bindPooled (h : Shows m taken s) {o : Option PooledBuffer}
    (ho : ∀ b, o = some b → (u, b) ∈ taken) (hu : u.isStorage) {name : String}
    (hx : bindPooled name o = .ok x) : Usable s.device.buffers x := by
  cases o with
  | none => cases hx
  | some b =>
    cases hx
    exact h.usable_taken (ho b rfl) hu

theorem usable_resource (h : Shows m bufs.toList s) {k : IR.Kernel} {kind : Shader.ResourceKind}
    (hx : s.resource k bufs kind = .ok x) : Usable s.device.buffers x := by
  have hmem : ∀ u o, (u, o) ∈ [(Usage.args, bufs.args), (.rets, bufs.rets),
      (.staging, bufs.staging), (.args, bufs.shared)] → ∀ b, o = some b → (u, b) ∈ bufs.toList := by
    rintro u _ ho b rfl
    exact mem_filterMap.2 ⟨_, ho, rfl⟩
  cases kind with
  | field id =>
    simp only [resource] at hx
    split at hx
    · rename_i f hf
      rcases h.fieldBuffer_cases f with ⟨st, hst, -, hb, -⟩ | ⟨hb, -⟩
      · rw [hb] at hx
        cases hx
        obtain ⟨b, hget, husage, -⟩ := h.stored hst
        exact ⟨b, hget, by rw [husage]; rfl⟩
      · rw [hb] at hx
        cases hx
    · cases hx
  | args => exact h.usable_bindPooled (hmem .args _ (by simp)) rfl hx
  | rets => exact h.usable_bindPooled (hmem .rets _ (by simp)) rfl hx
  | shared => exact h.usable_bindPooled (hmem .args bufs.shared (by simp)) rfl hx
  | texture id | storageTexture id | sampler id =>
    simp only [resource] at hx
    split at hx
    · cases hx
      trivial
    · cases hx

theorem commandsOf_eq (h : Shows m bufs.toList s) (hcs : s.commandsOf k bufs = .ok cs) :
    ∃ dispatches, (∀ c ∈ dispatches, IsDispatch s.device.buffers c)
      ∧ cs = dispatches ++ bufs.resultCopy (k.compiled.kernel.retWords * 4) := by
  obtain ⟨dispatches, hd, hcs⟩ := except_bind_ok hcs
  refine ⟨dispatches, fun c hc => ?_, ?_⟩
  · obtain ⟨⟨task, p⟩, -, hdispatch⟩ := exists_of_mem_mapM hd hc
    obtain ⟨bound, hb, hdispatch⟩ := except_bind_ok hdispatch
    cases hdispatch
    refine ⟨_, _, bound, _, rfl, fun x hx => ?_⟩
    obtain ⟨b, -, hres⟩ := exists_of_mem_mapM hb hx
    exact h.usable_resource hres
  · unfold LaunchBuffers.resultCopy
    cases hr : bufs.rets with
    | none =>
      rw [hr] at hcs
      cases hcs
      exact (append_nil _).symm
    | some rets =>
      cases hst : bufs.staging with
      | none =>
        rw [hr, hst] at hcs
        cases hcs
        exact (append_nil _).symm
      | some staging =>
        rw [hr, hst] at hcs
        cases hcs
        rfl

theorem read_rets (h : Shows m taken s) (hb : (.rets, b) ∈ taken) {n : Nat} (hn : n ≤ b.capacity) :
    (s.device.buffer b.buffer).read n = Array.replicate n 0 := by
  obtain ⟨c, hc, husage, hsize⟩ := h.custody.loans _ (mem_append_right _ (mem_append_right _ hb))
  rw [Device.buffer_of_getElem? hc, Buffer.read, h.custody.zero c (Array.mem_of_getElem? hc) husage,
    Array.extract_replicate]
  rw [hsize, Nat.min_eq_left hn, Nat.sub_zero]

/-! ## 3. Buffers for a launch -/

structure Fits (o : Option PooledBuffer) (words : Nat) : Prop where
  none_iff : o = none ↔ words = 0
  room : ∀ b, o = some b → words * 4 ≤ b.capacity

structure FitsAll (k : IR.Kernel) (words : List UInt32) (bufs : LaunchBuffers) : Prop where
  args : Fits bufs.args words.length
  rets : Fits bufs.rets k.retWords
  staging : Fits bufs.staging k.retWords
  shared : Fits bufs.shared k.sharedWords

theorem toList_perm (bufs : LaunchBuffers) :
    ((bufs.shared.map (Usage.args, ·)).toList ++ ((bufs.staging.map (Usage.staging, ·)).toList
      ++ ((bufs.rets.map (Usage.rets, ·)).toList ++
        ((bufs.args.map (Usage.args, ·)).toList ++ [])))).Perm bufs.toList := by
  have heq : bufs.toList = (bufs.args.map (.args, ·)).toList ++ ((bufs.rets.map (.rets, ·)).toList
      ++ ((bufs.staging.map (.staging, ·)).toList ++ (bufs.shared.map (.args, ·)).toList)) := by
    obtain ⟨args, rets, staging, shared⟩ := bufs
    cases args <;> cases rets <;> cases staging <;> cases shared <;> rfl
  rw [heq, perm_iff_count]
  simp only [count_append, count_nil]
  omega

def commit (k : SessionKernel) (bufs : LaunchBuffers) :
    Except DeviceError (List Command) → SessionM LaunchId
  | .error e => do
    release bufs
    throw e
  | .ok commands => do
    let outcome ← submit commands
    modifyGet fun s =>
      let id : LaunchId := ⟨s.submitted⟩
      let launch : Launch :=
        { outcome, ret := k.compiled.kernel.ret, retBytes := k.compiled.kernel.retWords * 4, buffers := bufs }
      (id, { s with submitted := s.submitted + 1, pending := (id, launch) :: s.pending })

theorem launch_refused {e : DeviceError} (h : s.argumentWords k.compiled.kernel args = .error e) :
    launch k args s = .error e s := by
  show EStateM.bind (ofExcept (s.argumentWords k.compiled.kernel args)) _ s = _
  rw [h]
  rfl

theorem launch_commit {words : List UInt32} {s1 : Session}
    (h : s.argumentWords k.compiled.kernel args = .ok words)
    (hbufs : acquireAll k.compiled.kernel words { s with launches := s.launches + 1 } = .ok bufs s1) :
    launch k args s = commit k bufs (s1.commandsOf k bufs) s1 := by
  show EStateM.bind (ofExcept (s.argumentWords k.compiled.kernel args)) _ s = _
  rw [h]
  exact run_bind hbufs

/-! ## 4. Results -/

end Shows

/-- The result of a kernel none of whose shaders has run: a zero for each component. -/
def zeroResult : Option Ty → List Literal
  | some ty => ty.scalars.map fun s => (Literal.i32 0).cast s
  | none => []

theorem ofBits_zero (s : Scalar) : Literal.ofBits 0 s = (Literal.i32 0).cast s := by
  cases s <;> decide

namespace Shows

variable {m : FieldMap} {s : Session} {id : LaunchId} {l : Launch}

theorem result_of_settled (h : Settled s.device.buffers l) :
    s.result l = .ok (zeroResult l.ret) := by
  unfold result
  rw [h.outcome]
  cases hret : l.ret with
  | none => rfl
  | some ty =>
    have hsize : l.retBytes = 4 * ty.size := by rw [h.size, hret, Nat.mul_comm]; rfl
    by_cases hzero : l.retBytes = 0
    · have hscalars : ty.scalars = [] := length_eq_zero_iff.1 (by rw [Ty.length_scalars]; omega)
      rw [h.none hzero, zeroResult, hscalars]
      rfl
    · obtain ⟨x, b, hx, hb, husage, hread⟩ := h.staging hzero
      have hbytes : s.device.readBuffer x.buffer l.retBytes = .ok (.replicate l.retBytes 0) := by
        rw [Device.readBuffer, Device.buffer_of_getElem? hb]
        show (if b.usage.isMappable then Except.ok (b.read l.retBytes) else _) = _
        rw [husage, hread]
        rfl
      rw [hx]
      show (s.device.readBuffer x.buffer l.retBytes >>= _) = _
      rw [hbytes, hsize]
      show Except.ok ((wordsOfBytes (Array.replicate (4 * ty.size) 0)).zipWith Literal.ofBits ty.scalars) = _
      rw [wordsOfBytes_replicate_zero, ← Ty.length_scalars]
      refine congrArg Except.ok ?_
      show _ = ty.scalars.map _
      generalize ty.scalars = scalars
      induction scalars with
      | nil => rfl
      | cons c cs ih => rw [length_cons, replicate_succ, zipWith_cons_cons, ih, map_cons, ofBits_zero]

theorem perm_filter_of_lookup {xs : List (LaunchId × Launch)} (hdistinct : (xs.map Prod.fst).Nodup)
    (hl : xs.lookup id = some l) : xs.Perm ((id, l) :: xs.filter (·.1 != id)) := by
  obtain ⟨before, after, heq, -⟩ := lookup_eq_some_iff.1 hl
  have hfilter : xs.filter (·.1 != id) = before ++ after := by
    rw [heq, map_append, map_cons, nodup_middle, ← map_append] at hdistinct
    have hother : ∀ p ∈ before ++ after, (p.1 != id) = true := by
      intro p hp
      rw [bne_iff_ne]
      exact fun hid => (nodup_cons.1 hdistinct).1 (mem_map.2 ⟨p, hp, hid⟩)
    rw [heq, filter_append, filter_cons_of_neg (by simp), ← filter_append, filter_eq_self.2 hother]
  rw [hfilter, heq]
  exact perm_middle

theorem takePending_none (hl : s.pending.lookup id = none) :
    takePending id s = .error .notPending s := by
  rw [takePending, run_get, hl]
  rfl

theorem takePending_some (hl : s.pending.lookup id = some l) :
    takePending id s = .ok l { s with pending := s.pending.filter (·.1 != id) } := by
  rw [takePending, run_get, hl]
  rfl

end Shows

namespace Books

open Shows

variable {m : FieldMap} {s : Session} {l : Launch}

/-! ## 5. Steps of a launch -/

/-- The submission of a launch runs to its end, and the copy of the result is zero. -/
theorem submit_commandsOf (h : Books m bufs.toList s) (hcs : s.commandsOf k bufs = .ok cs) :
    ∃ d, s.device.submit cs = (.ok (), d) ∧ Books m bufs.toList { s with device := d }
      ∧ ∀ rets staging, bufs.rets = some rets → bufs.staging = some staging →
        k.compiled.kernel.retWords * 4 ≤ rets.capacity → k.compiled.kernel.retWords * 4 ≤ staging.capacity →
        ∃ b, d.buffers[staging.buffer.index]? = some b ∧ b.usage = .staging
          ∧ b.read (k.compiled.kernel.retWords * 4) = Array.replicate (k.compiled.kernel.retWords * 4) 0 := by
  obtain ⟨dispatches, hdispatches, rfl⟩ := h.commandsOf_eq hcs
  obtain ⟨d, hd, hbuffers⟩ := Device.submit_dispatches hdispatches
  rw [hd, LaunchBuffers.resultCopy]
  have hsame : Books m bufs.toList { s with device := { d with submissions := d.submissions + 1 } } :=
    h.congr ⟨hbuffers, rfl, rfl, rfl, rfl⟩
  cases hr : bufs.rets with
  | none => exact ⟨_, rfl, hsame, nofun⟩
  | some rets =>
    cases hst : bufs.staging with
    | none => exact ⟨_, rfl, hsame, nofun⟩
    | some staging =>
      have hrets : (.rets, rets) ∈ bufs.toList := mem_filterMap.2 ⟨(.rets, bufs.rets), by simp, by simp [hr]⟩
      have hstaging : (.staging, staging) ∈ bufs.toList :=
        mem_filterMap.2 ⟨(.staging, bufs.staging), by simp, by simp [hst]⟩
      let n := k.compiled.kernel.retWords * 4
      have hsrc : d.buffer rets.buffer = s.device.buffer rets.buffer := by rw [Device.buffer, Device.buffer, hbuffers]
      let data := (d.buffer rets.buffer).read n
      let d' : Device := { d with buffers := written d.buffers staging.buffer data, submissions := d.submissions + 1 }
      have hcopy : d'.buffers = written s.device.buffers staging.buffer data := by
        rw [← hbuffers]
      have hshows : Books m bufs.toList { s with device := d' } := h.write hstaging (by simp) hcopy
      refine ⟨d', d.submit_copy, hshows, ?_⟩
      · rintro _ _ ⟨⟩ ⟨⟩ hr1 hs1
        obtain ⟨b, hb, husage, hsize⟩ := h.custody.loans _ (mem_append_right _ (mem_append_right _ hstaging))
        refine ⟨b.write 0 data, ?_, (b.usage_write 0 data).trans husage, ?_⟩
        · rw [hcopy, Array.getElem?_modify, if_pos rfl, hb]
          rfl
        · have hdata : data = Array.replicate n 0 := by simp only [data, hsrc, h.read_rets hrets hr1, n]
          have hle : (Array.replicate n (0 : UInt8)).size ≤ b.size := by
            rw [Array.size_replicate, hsize]
            exact hs1
          have hread := Buffer.read_write hle
          rw [Array.size_replicate] at hread
          rw [hdata]
          exact hread

theorem acquireAll (h : Books m [] s) (k : IR.Kernel) (words : List UInt32) :
    ∃ bufs s', Session.acquireAll k words s = .ok bufs s' ∧ Books m bufs.toList s' ∧ FitsAll k words bufs
      ∧ SameResources s s' := by
  obtain ⟨args, s1, hargs, h1, hnone1, hroom1, hsame1⟩ := lends_acquireWith.optional (words.isEmpty = true) h
  obtain ⟨rets, s2, hrets, h2, hnone2, hroom2, hsame2⟩ :=
    (lends_acquire .rets (k.retWords * 4)).optional (k.retWords * 4 = 0) h1
  obtain ⟨staging, s3, hstaging, h3, hnone3, hroom3, hsame3⟩ :=
    (lends_acquire .staging (k.retWords * 4)).optional (k.retWords * 4 = 0) h2
  obtain ⟨shared, s4, hshared, h4, hnone4, hroom4, hsame4⟩ :=
    lends_acquireWith.optional (k.sharedWords = 0) h3
  have hempty : words.isEmpty = true ↔ words.length = 0 := by rw [List.isEmpty_iff, List.length_eq_zero_iff]
  have hzero : k.retWords * 4 = 0 ↔ k.retWords = 0 := by omega
  rw [length_replicate] at hroom4
  refine ⟨{ args, rets, staging, shared }, s4, ?_, h4.perm (toList_perm { args, rets, staging, shared }), ?_, ?_⟩
  · unfold Session.acquireAll
    exact (hargs _).trans ((hrets _).trans ((hstaging _).trans (hshared _)))
  · exact ⟨⟨hnone1.trans hempty, hroom1⟩, ⟨hnone2.trans hzero, hroom2⟩, ⟨hnone3.trans hzero, hroom3⟩, ⟨hnone4, hroom4⟩⟩
  · constructor
    · rw [hsame4.fields, hsame3.fields, hsame2.fields, hsame1.fields]
    · rw [hsame4.textures, hsame3.textures, hsame2.textures, hsame1.textures]

theorem addPending (h : Books m l.buffers.toList s) (hl : Settled s.device.buffers l) :
    Books { m with pending := (⟨m.submitted⟩, l.ret) :: m.pending, submitted := m.submitted + 1 } []
      { s with submitted := s.submitted + 1, pending := (⟨s.submitted⟩, l) :: s.pending } := by
  have hmove : (s.pools.free ++ (s.lent ++ l.buffers.toList)).Perm
      (s.pools.free ++ ((l.buffers.toList ++ s.lent) ++ [])) := by
    rw [append_nil]
    exact perm_append_comm.append_left _
  refine ⟨⟨h.custody.perm hmove, h.pools, forall_mem_cons.2 ⟨hl, h.settled⟩, ?_, ?_, h.numbered,
    h.fields, ?_, ?_⟩, fun u => (countOf_perm hmove).symm.trans (h.counted u)⟩
  · refine nodup_cons.2 ⟨fun hmem => ?_, h.distinct⟩
    obtain ⟨p, hp, heq⟩ := mem_map.1 hmem
    have hlt := h.earlier p hp
    rw [heq] at hlt
    exact Nat.lt_irrefl _ hlt
  · exact forall_mem_cons.2 ⟨Nat.lt_succ_self _, fun p hp => Nat.lt_succ_of_lt (h.earlier p hp)⟩
  · rw [map_cons, h.pending, h.submitted]
  · rw [h.submitted]

/-- A launch fails with the words of its arguments, or with a resource that is not there, or it
becomes pending. -/
theorem launch_cases (h : Books m [] s) (k : SessionKernel) (args : List Value) :
    (∃ e, s.argumentWords k.compiled.kernel args = .error e ∧ launch k args s = .error e s) ∨
    ∃ words bufs s1, s.argumentWords k.compiled.kernel args = .ok words ∧ Books m bufs.toList s1
      ∧ FitsAll k.compiled.kernel words bufs ∧ SameResources s s1
      ∧ ((∃ e s', s1.commandsOf k bufs = .error e ∧ launch k args s = .error e s' ∧ Books m [] s') ∨
        ∃ cs s' l, s1.commandsOf k bufs = .ok cs ∧ launch k args s = .ok ⟨m.submitted⟩ s'
          ∧ s'.pending.lookup ⟨m.submitted⟩ = some l ∧ l.outcome = .ok () ∧ l.buffers = bufs
          ∧ Books { m with
              pending := (⟨m.submitted⟩, k.compiled.kernel.ret) :: m.pending, submitted :=
                m.submitted + 1 } [] s') := by
  cases hwords : s.argumentWords k.compiled.kernel args with
  | error e => exact .inl ⟨e, rfl, launch_refused hwords⟩
  | ok words =>
    have h0 : Books m [] { s with launches := s.launches + 1 } := h.congr ⟨rfl, rfl, rfl, rfl, rfl⟩
    obtain ⟨bufs, s1, hbufs, h1, hfits, hsame⟩ := h0.acquireAll k.compiled.kernel words
    refine .inr ⟨words, bufs, s1, rfl, h1, hfits, ⟨hsame.fields, hsame.textures⟩, ?_⟩
    rw [launch_commit hwords hbufs]
    cases hcs : s1.commandsOf k bufs with
    | error e =>
      rw [← append_nil bufs.toList] at h1
      obtain ⟨s', hrelease, h', -⟩ := h1.release
      exact .inl ⟨e, s', rfl, run_bind hrelease, h'⟩
    | ok cs =>
      obtain ⟨d, hd, h2, hresult⟩ := h1.submit_commandsOf hcs
      let l : Launch := { outcome := .ok (), ret := k.compiled.kernel.ret, retBytes := k.compiled.kernel.retWords * 4, buffers := bufs }
      have hl : Settled d.buffers l := by
        refine ⟨rfl, rfl, fun hzero => hfits.staging.none_iff.2 (by simp only [l] at hzero; omega), fun hne => ?_⟩
        have hwords : k.compiled.kernel.retWords ≠ 0 := by simp only [l] at hne; omega
        obtain ⟨rets, hrets⟩ := Option.ne_none_iff_exists'.1 (mt hfits.rets.none_iff.1 hwords)
        obtain ⟨staging, hstaging⟩ := Option.ne_none_iff_exists'.1 (mt hfits.staging.none_iff.1 hwords)
        obtain ⟨b, hb, husage, hread⟩ := hresult rets staging hrets hstaging
          (hfits.rets.room _ hrets) (hfits.staging.room _ hstaging)
        exact ⟨staging, b, hstaging, hb, husage, hread⟩
      have hpending := Books.addPending (l := l) h2 hl
      refine .inr ⟨cs, _, l, rfl, ?_, ?_, rfl, rfl, hpending⟩
      · refine (run_bind (run_submit hd)).trans ?_
        show EStateM.Result.ok _ _ = _
        rw [h1.submitted]
      · rw [← h1.submitted]
        exact lookup_cons_self

theorem takePending {id : LaunchId} (h : Books m [] s) (hl : s.pending.lookup id = some l) :
    Settled s.device.buffers l
      ∧ takePending id s = .ok l { s with pending := s.pending.filter (·.1 != id) }
      ∧ Books { m with pending := m.pending.filter (·.1 != id) } l.buffers.toList
        { s with pending := s.pending.filter (·.1 != id) } := by
  have hperm := perm_filter_of_lookup h.distinct hl
  have hsub : (s.pending.filter (·.1 != id)).Sublist s.pending := filter_sublist
  have hmem : (id, l) ∈ s.pending := hperm.mem_iff.2 (mem_cons_self ..)
  let s' : Session := { s with pending := s.pending.filter (·.1 != id) }
  have hmove : (s.pools.free ++ (s.lent ++ [])).Perm (s.pools.free ++ (s'.lent ++ l.buffers.toList)) := by
    rw [append_nil]
    exact ((hperm.flatMap_right _).trans perm_append_comm).append_left _
  refine ⟨h.settled _ hmem, takePending_some hl,
    ⟨h.custody.perm hmove, h.pools, fun p hp => h.settled p (hsub.subset hp),
    h.distinct.sublist (hsub.map _), fun p hp => h.earlier p (hsub.subset hp), h.numbered, h.fields, ?_, h.submitted⟩,
    fun u => (countOf_perm hmove).symm.trans (h.counted u)⟩
  · show (s.pending.filter (·.1 != id)).map (fun p => (p.1, p.2.ret)) = m.pending.filter (·.1 != id)
    rw [← h.pending, filter_map]
    rfl

end Books

end ArrayKernel
