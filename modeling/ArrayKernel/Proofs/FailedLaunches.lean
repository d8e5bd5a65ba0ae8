import ArrayKernel.Proofs.PoolConservation
import ArrayKernel.Proofs.Session.Pipelines

/-!
# Launches that fail

A launch that fails gives back the buffers that it took (`failed_launch_undisturbed`). Its number
is not taken back, and goes into the seed of random numbers (`failed_launch_counted`).
-/

namespace ArrayKernel

open Shows Lowering List

/-! ## 1. Steps that submit nothing -/

/-- Nothing has been recorded, counted or added. -/
structure Unrecorded (s s' : Session) : Prop where
  fields : s'.fields = s.fields
  pending : s'.pending = s.pending
  launches : s'.launches = s.launches
  submissions : s'.device.submissions = s.device.submissions
  dispatches : s'.device.dispatches = s.device.dispatches

theorem Unrecorded.trans {s1 s2 s3 : Session} (h : Unrecorded s1 s2) (h' : Unrecorded s2 s3) :
    Unrecorded s1 s3 :=
  ⟨h'.fields.trans h.fields, h'.pending.trans h.pending, h'.launches.trans h.launches,
    h'.submissions.trans h.submissions, h'.dispatches.trans h.dispatches⟩

theorem unrecorded_acquire (u : Usage) (size : Nat) :
    Leads Unrecorded (Session.acquire u size) := by
  intro s
  have hfit := firstFit_get (s.pools.get u) s.device size
  show Unrecorded s { s with
    pools := s.pools.set u ((s.pools.get u).get s.device size).2.1, device := ((s.pools.get u).get s.device size).2.2 }
  generalize (s.pools.get u).get s.device size = x at hfit
  cases hfit with
  | reused hfree hsmall hle | made hsmall => exact ⟨rfl, rfl, rfl, rfl, rfl⟩

theorem loaning_unrecorded : Loaning Unrecorded where
  refl _ := ⟨rfl, rfl, rfl, rfl, rfl⟩
  trans _ _ _ := .trans
  acquire := unrecorded_acquire
  write _ _ _ _ := ⟨rfl, rfl, rfl, rfl, rfl⟩
  giveBack _ _ _ := ⟨rfl, rfl, rfl, rfl, rfl⟩

variable {m : FieldMap} {s s' : Session}

/-- A launch that fails has done nothing, or all that it has done is to take buffers and to give
them back. -/
theorem Books.launch_failed {k : SessionKernel} {args : List Value} {e : DeviceError}
    (h : Books m [] s) (hrun : Session.launch k args s = .error e s') :
    (s.argumentWords k.compiled.kernel args = .error e ∧ s' = s) ∨
    (∃ words, s.argumentWords k.compiled.kernel args = .ok words) ∧ Unrecorded { s with launches := s.launches + 1 } s'
      ∧ Books m [] s' := by
  cases hwords : s.argumentWords k.compiled.kernel args with
  | error e' =>
    rw [launch_refused hwords] at hrun
    cases hrun
    exact .inl ⟨rfl, rfl⟩
  | ok words =>
    let s0 : Session := { s with launches := s.launches + 1 }
    have h0 : Books m [] s0 := h.congr ⟨rfl, rfl, rfl, rfl, rfl⟩
    obtain ⟨bufs, s1, hbufs, h1, -⟩ := h0.acquireAll k.compiled.kernel words
    rw [launch_commit hwords hbufs] at hrun
    cases hcs : s1.commandsOf k bufs with
    | ok cs =>
      -- a submission may end with an error, but the launch is pending all the same
      rw [hcs] at hrun
      cases hrun
    | error e' =>
      rw [← append_nil bufs.toList] at h1
      obtain ⟨s2, hrelease, h2, -⟩ := h1.release
      rw [hcs, commit, run_bind hrelease] at hrun
      cases hrun
      have htaken := loaning_unrecorded.acquireAll k.compiled.kernel words s0
      have hback := loaning_unrecorded.release bufs s1
      rw [hbufs] at htaken
      rw [hrelease] at hback
      exact .inr ⟨⟨words, rfl⟩, htaken.trans hback, h2⟩

/-! ## 2. What is left of a launch that failed -/

/-- Fields have the same words, nothing has been submitted, the same launches are pending with the
same buffers, and from each pool as many buffers are out as before. -/
structure Undisturbed (s s' : Session) : Prop where
  fields : s'.fields = s.fields
  contents : ∀ f ∈ s.fields, contents s'.device.buffers f = contents s.device.buffers f
  submissions : s'.device.submissions = s.device.submissions
  dispatches : s'.device.dispatches = s.device.dispatches
  pending : s'.pending = s.pending
  out : ∀ u, (s'.pools.get u).allocations + (s.pools.get u).free.length
    = (s.pools.get u).allocations + (s'.pools.get u).free.length

theorem Books.contents_eq (h : Books m [] s) (h' : Books m [] s') (hf : s'.fields = s.fields)
    {f : StoredField} (hmem : f ∈ s.fields) :
    contents s'.device.buffers f = contents s.device.buffers f := by
  have hsame := h'.fields.trans h.fields.symm
  rw [hf] at hsame
  exact congrArg Prod.snd (map_inj_left.1 hsame f (Array.mem_toList_iff.2 hmem))

theorem Books.out_eq (h : Books m [] s) (h' : Books m [] s') (hp : s'.pending = s.pending)
    (u : Usage) : (s'.pools.get u).allocations + (s.pools.get u).free.length
      = (s.pools.get u).allocations + (s'.pools.get u).free.length := by
  have hcount := h.counted u
  have hcount' := h'.counted u
  rw [countOf_append, countOf_free, Session.lent] at hcount hcount'
  rw [hp] at hcount'
  omega

/-- After any operations, a launch that fails leaves the session as it was, except for the number of
launches: that is one more exactly if the arguments were accepted. -/
theorem failed_launch_undisturbed (settings : Settings) (clock : Nat) (ops : List BufferOp)
    {s s' : Session} (hs : s = ({ settings, clock } : Session).afterAll ops) {k : SessionKernel}
    {args : List Value} {e : DeviceError} (h : Session.launch k args s = .error e s') :
    Undisturbed s s'
      ∧ s'.launches = if (s.argumentWords k.compiled.kernel args).isOk then s.launches + 1 else s.launches := by
  obtain ⟨m, hm⟩ := books_afterAll settings clock ops
  rw [← hs] at hm
  rcases hm.launch_failed h with ⟨hwords, rfl⟩ | ⟨⟨words, hwords⟩, hsame, hm'⟩
  · rw [hwords]
    exact ⟨⟨rfl, fun _ _ => rfl, rfl, rfl, rfl, fun _ => rfl⟩, rfl⟩
  · rw [hwords]
    exact ⟨⟨hsame.fields, fun f hf => hm.contents_eq hm' hsame.fields hf, hsame.submissions,
      hsame.dispatches, hsame.pending, hm.out_eq hm' hsame.pending⟩, hsame.launches⟩

/-! ## 3. Kernels with a field of another session -/

theorem mapM_error {ε α β : Type} {f : α → Except ε β} {xs : List α} {x : α} {e : ε} (hx : x ∈ xs)
    (h : f x = .error e) : ∃ e', xs.mapM f = .error e' := by
  induction hx with
  | head xs => exact ⟨e, by rw [mapM_cons, h]; rfl⟩
  | tail y _ ih =>
    obtain ⟨e', he⟩ := ih
    rw [mapM_cons, he]
    cases f y with
    | error e => exact ⟨e, rfl⟩
    | ok z => exact ⟨e', rfl⟩

/-- A kernel cannot be launched where one of its tasks is bound to a field that the session does not
have. -/
theorem Books.launch_stray {k : SessionKernel} {task : CompiledTask} {p : PipelineId}
    {b : Shader.Binding} {f : FieldInfo} {id : Nat} (h : Books m [] s)
    (htask : (task, p) ∈ k.compiled.tasks.zip k.pipelines) (hb : b ∈ task.shader.bindings)
    (hkind : b.kind = .field id) (hf : k.compiled.kernel.field? id = some f)
    (hstray : m.words? f = none) (args : List Value) :
    ∃ e s', Session.launch k args s = .error e s' := by
  rcases h.launch_cases k args with ⟨e, -, hrun⟩ | ⟨-, bufs, s1, -, h1, -, -, ⟨e, s', -, hrun, -⟩ | ⟨cs, -, -, hcs, -⟩⟩
  · exact ⟨e, s, hrun⟩
  · exact ⟨e, s', hrun⟩
  · have hresource : s1.resource k.compiled.kernel bufs b.kind = .error (.unknownResource f.name) := by
      rcases h1.fieldBuffer_cases f with ⟨st, -, -, -, hwords⟩ | ⟨hbuffer, -⟩
      · rw [hstray] at hwords
        cases hwords
      · rw [hkind, Session.resource, hf]
        exact congrArg (Except.map Bound.buffer) hbuffer
    obtain ⟨e, hbound⟩ := mapM_error (f := fun b => s1.resource k.compiled.kernel bufs b.kind) hb hresource
    have hdispatch : s1.dispatchOf k.compiled.kernel bufs task p = .error e := by
      rw [Session.dispatchOf, hbound]
      rfl
    obtain ⟨e', hall⟩ := mapM_error (f := fun (x : CompiledTask × PipelineId) =>
      s1.dispatchOf k.compiled.kernel bufs x.1 x.2)
      htask hdispatch
    rw [Session.commandsOf] at hcs
    simp only [hall] at hcs
    cases hcs

def ghost : FieldInfo := { id := 9, name := "ghost", shape := [4], elem := .f32 }

def ghostScope : Scope where
  table := [("ghost", .field ghost)]

def ghostSource : String := "() => \x7b ghost[0] = 1.0 \x7d"

theorem ghostScope_bindable : HostGives (Bindable [ghost] []) ghostScope [] where
  table p hp := by
    rw [mem_singleton.1 hp]
    exact mem_singleton_self _
  receiver := nofun
  templates := nofun

/-- The kernel is made, and can never be launched. -/
theorem Books.launch_ghost (h : Books m [] s) (hs : CacheReads s)
    (hsettings : s.settings.compiler = {}) (hstray : m.words? ghost = none) :
    ∃ k, (s.step (.kernel ghostSource ghostScope [])).1 = .kernel k
      ∧ (encodeArguments k.compiled.kernel []).isOk
      ∧ ∃ e s', Session.launch k [] (s.step (.kernel ghostSource ghostScope [])).2 = .error e s' := by
  obtain ⟨r, ir, hr, hir, hfacts⟩ := exists_of_kernelHas
    (fun k => k.field? 9 = some ghost ∧ (encodeArguments k []).isOk
      ∧ (Shader.ofKernel k {}).map (fun t => t.bindings.map Shader.Binding.kind) = [[.field 9]])
    ghostSource ghostScope (by decide +kernel)
  obtain ⟨hf, hargs, hkinds⟩ := of_decide_eq_true hfacts
  have hfew : FewResources [ghost] [] := ⟨by decide, nofun, by decide⟩
  obtain ⟨c, hc, rfl⟩ := exists_compile ghostScope_bindable hfew (by decide) hr hir
  obtain ⟨k, hk, rfl, hlength⟩ := kernel_made hs (hsettings ▸ hc)
    (readBack_compile ghostScope_bindable hfew (by decide) hc)
  obtain ⟨-, -, -, hshaders⟩ := compile_ok hc
  -- there is one task, and it is bound to the field only
  rw [← map_shader_of_mapM hshaders, map_map] at hkinds
  obtain ⟨task, htasks, hkind⟩ := map_eq_singleton_iff.1 hkinds
  obtain ⟨b, hb, hkind⟩ := map_eq_singleton_iff.1 hkind
  rw [htasks] at hlength
  obtain ⟨p, hp⟩ := length_eq_one_iff.1 hlength
  obtain ⟨-, h'⟩ := h.refines_step (.kernel ghostSource ghostScope [])
  refine ⟨k, hk, hargs, h'.launch_stray (p := p) ?_ (hb ▸ mem_singleton_self b) hkind hf hstray []⟩
  rw [htasks, hp]
  exact mem_singleton_self _

theorem isOk_argumentWords {k : IR.Kernel} {args : List Value} (h : (encodeArguments k args).isOk) :
    (s.argumentWords k args).isOk := by
  unfold Session.argumentWords
  cases hwords : encodeArguments k args with
  | ok words => rfl
  | error e =>
    rw [hwords] at h
    cases h

theorem step_afterAll (ops : List BufferOp) (op : SessionOp) :
    ((s.afterAll ops).step op).2 = s.afterAll (ops ++ [.user op]) := by
  rw [Session.afterAll_concat]
  rfl

theorem Unrecorded.launches_ne (h : Unrecorded { s with launches := s.launches + 1 } s') :
    s'.launches ≠ s.launches := by
  rw [h.launches]
  simp

def keptOps : List BufferOp :=
  [.user (.field "kept" [2] .i32), .user (.write { id := 0, name := "kept", shape := [2], elem := .i32 } [7, 9])]

/-- The launch is counted, and the words of the session's own field are there. -/
theorem failed_launch_undisturbed_stray :
    let s := ({} : Session).afterAll keptOps
    let s' := (s.step (.kernel ghostSource ghostScope [])).2
    ∃ k e s'', (s.step (.kernel ghostSource ghostScope [])).1 = .kernel k ∧ Session.launch k [] s' = .error e s''
      ∧ Undisturbed s' s'' ∧ s''.launches = s'.launches + 1 := by
  obtain ⟨m, h⟩ := books_afterAll {} 0 keptOps
  have hstray : m.words? ghost = none := by
    rcases h.fieldBuffer_cases ghost with ⟨st, hst, -⟩ | ⟨-, hnone⟩
    · cases hst
    · exact hnone
  obtain ⟨k, hk, hargs, e, s'', hrun⟩ := h.launch_ghost (fun _ _ h => by cases h) rfl hstray
  obtain ⟨hsame, hcount⟩ := failed_launch_undisturbed {} 0 _
    (step_afterAll keptOps (.kernel ghostSource ghostScope [])) hrun
  exact ⟨k, e, s'', hk, hrun, hsame, hcount.trans (if_pos (isOk_argumentWords hargs))⟩

/-- So a launch that fails can change the seed of the launches after it. -/
theorem failed_launch_counted :
    let s := (({} : Session).step (.kernel ghostSource ghostScope [])).2
    ∃ k e s', (({} : Session).step (.kernel ghostSource ghostScope [])).1 = .kernel k ∧
      Session.launch k [] s = .error e s'
      ∧ s'.launches ≠ s.launches := by
  intro s
  have h := Books.start {} 0
  obtain ⟨k, hk, hargs, e, s', hrun⟩ := h.launch_ghost (fun _ _ h => by cases h) rfl rfl
  obtain ⟨-, h'⟩ := h.refines_step (.kernel ghostSource ghostScope [])
  refine ⟨k, e, s', hk, hrun, ?_⟩
  rcases h'.launch_failed hrun with ⟨hwords, -⟩ | ⟨-, hsame, -⟩
  · have hok := isOk_argumentWords (s := s) hargs
    rw [hwords] at hok
    cases hok
  · exact hsame.launches_ne

end ArrayKernel
