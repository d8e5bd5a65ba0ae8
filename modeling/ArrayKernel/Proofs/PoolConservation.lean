import ArrayKernel.Proofs.Session.Growth
import Mathlib.Data.List.Induction

/-!
# No buffer is lost

The buffers of a pool are the free ones and those that pending launches have, whether launches fail,
are given up or are waited for (`pools_conserved`).
-/

namespace ArrayKernel

open Shows List Session

variable {m : FieldMap} {s : Session}

/-! ## 1. Sessions that have come to be -/

/-- What can happen to the buffers of a session: an operation of a user, or that the bytes of a
field are read in pieces of some width. -/
inductive BufferOp where
  | user (op : SessionOp)
  | readField (f : FieldInfo) (width : Nat)

namespace Session

def after (s : Session) : BufferOp → Session
  | .user op => (s.step op).2
  | .readField f width => endOf (readField f width s)

def afterAll (s : Session) (ops : List BufferOp) : Session := ops.foldl after s

theorem afterAll_concat {ops : List BufferOp} {op : BufferOp} :
    s.afterAll (ops ++ [op]) = (s.afterAll ops).after op := by
  rw [afterAll, foldl_append]
  rfl

end Session

/-! ## 2. What one operation keeps -/

/-- A field that cannot be read in such pieces is not read at all. -/
theorem Books.readField_cases (h : Books m [] s) {f : FieldInfo} {width : Nat} :
    (∃ e, readField f width s = .error e s) ∨
    ∃ pieces s', readField f width s = .ok pieces s' ∧ Books m [] s' := by
  rcases h.fieldBuffer_cases f with ⟨st, -, -, hb, hwords⟩ | ⟨hb, -⟩
  · obtain ⟨size, hsize⟩ := h.bytes_of_words? (f := f) (hwords ▸ rfl)
    by_cases hwidth : width = 0 ∨ size % width ≠ 0
    · refine .inl ⟨.sizeMismatch f.name size width, ?_⟩
      show EStateM.bind (ofExcept (s.fieldBuffer f)) _ s = _
      rw [hb]
      show EStateM.bind (sized f.bytes) _ s = _
      rw [hsize]
      show (if width = 0 ∨ size % width ≠ 0 then _ else _ : SessionM _) s = _
      rw [if_pos hwidth]
      rfl
    · obtain ⟨bytes, s', hrun, -, h'⟩ := h.readField_ok (hwords ▸ rfl) hsize hwidth
      exact .inr ⟨_, s', hrun, h'⟩
  · refine .inl ⟨.unknownResource f.name, ?_⟩
    show EStateM.bind (ofExcept (s.fieldBuffer f)) _ s = _
    rw [hb]
    rfl

theorem Books.after (h : Books m [] s) (op : BufferOp) : ∃ m', Books m' [] (s.after op) := by
  cases op with
  | user op => exact ⟨_, (h.refines_step op).2⟩
  | readField f width =>
    refine ⟨m, ?_⟩
    show Books m [] (endOf (readField f width s))
    rcases h.readField_cases with ⟨e, hrun⟩ | ⟨pieces, s', hrun, h'⟩
    · rw [hrun]
      exact h
    · rw [hrun]
      exact h'

/-! ## 3. What launches have asked for -/

/-- The operation is a launch that has become the given one, with buffers for all words that the
kernel and its arguments ask for. -/
def Requested (s : Session) (op : BufferOp) (p : LaunchId × Launch) : Prop :=
  ∃ k args words, op = .user (.launch k args) ∧ (s.step (.launch k args)).1 = .launched p.1
    ∧ s.argumentWords k.compiled.kernel args = .ok words ∧ FitsAll k.compiled.kernel words p.2.buffers

/-- A launch adds itself to those that are pending, and does so only if it succeeds. -/
theorem Books.pending_launch (h : Books m [] s) {k : SessionKernel} {args : List Value} :
    ∀ p ∈ (s.step (.launch k args)).2.pending, p ∈ s.pending ∨ Requested s (.user (.launch k args)) p := by
  intro p hp
  obtain ⟨added, hadded⟩ := (launching_launch k args s).pending
  have hlen := congrArg List.length hadded
  rw [length_append] at hlen
  -- a session shows as many launches as its map has
  have hpending : ∀ {m' s'}, Books m' [] s' → s'.pending.length = m'.pending.length := fun h' => by
    rw [← h'.pending, length_map]
  rcases h.launch_cases k args with ⟨e, -, hrun⟩ | ⟨words, bufs, s1, hwords, -, hfits, -, hend⟩
  · rw [step_error rfl hrun] at hp
    exact .inl hp
  · rcases hend with ⟨e, s', -, hrun, h'⟩ | ⟨cs, s', l, -, hrun, hlookup, -, hbuffers, h'⟩
    · rw [step_error rfl hrun] at hp
      rw [hrun] at hadded hlen
      rw [hpending h, show (endOf (EStateM.Result.error e s') : Session).pending.length = _ from hpending h'] at hlen
      have hnone : added = [] := length_eq_zero_iff.1 (by omega)
      have heq : s.pending = s'.pending := by
        rw [hnone] at hadded
        exact hadded
      rw [heq]
      exact .inl hp
    · have hstep : s.step (.launch k args) = (.launched ⟨m.submitted⟩, s') := step_ok rfl hrun
      rw [hstep] at hp
      rw [hrun] at hadded hlen
      rw [hpending h, show (endOf (EStateM.Result.ok _ s') : Session).pending.length = _ from hpending h'] at hlen
      obtain ⟨q, rfl⟩ := length_eq_one_iff.1 (by rw [length_cons] at hlen; omega : added.length = 1)
      have hcons : s'.pending = q :: s.pending := hadded.symm
      rw [hcons] at hp hlookup
      rcases mem_cons.1 hp with rfl | hp
      · -- the launch that was added is the one with the new id
        have hq : p = (⟨m.submitted⟩, l) := by
          have hid := congrArg List.head? h'.pending
          rw [hcons] at hid
          have hfst : p.1 = ⟨m.submitted⟩ := congrArg Prod.fst (Option.some.inj hid)
          rw [lookup_cons, hfst, beq_self_eq_true] at hlookup
          exact Prod.ext hfst (Option.some.inj hlookup)
        refine .inr ⟨k, args, words, rfl, ?_, hwords, ?_⟩
        · rw [hstep, hq]
        · rw [hq]
          exact hbuffers ▸ hfits
      · exact .inl hp

theorem OnlyBuffers.pending {s' : Session} (h : OnlyBuffers s s') : s'.pending ⊆ s.pending := by
  obtain ⟨pools, device, rfl, -⟩ := h
  exact .refl _

theorem fewer_takePending (id : LaunchId) :
    Leads (fun s s' => s'.pending ⊆ s.pending) (takePending id) := by
  intro s
  cases hl : s.pending.lookup id with
  | none =>
    rw [Shows.takePending_none hl]
    exact .refl _
  | some l =>
    rw [Shows.takePending_some hl]
    exact filter_sublist.subset

theorem Books.pending_after (h : Books m [] s) {op : BufferOp} :
    ∀ p ∈ (s.after op).pending, p ∈ s.pending ∨ Requested s op p := by
  -- all but launches only take from what is pending
  have hfewer : ∀ {α : Type} {x : SessionM α}, Leads (fun s s' => s'.pending ⊆ s.pending) x →
      ∀ (g : α → Answer), (endOf ((g <$> x) s)).pending ⊆ s.pending := fun hx g => (Leads.map hx g) s
  have hlocal : ∀ {α : Type} {x : SessionM α}, Local x → Leads (fun s s' => s'.pending ⊆ s.pending) x :=
    fun hx => hx.imp fun _ _ => OnlyBuffers.pending
  have hsame : ∀ {α : Type} {x : SessionM α}, Leads SameStore x → Leads (fun s s' => s'.pending ⊆ s.pending) x :=
    fun hx => hx.imp fun _ _ h => h.pending ▸ List.Subset.refl _
  have htrans : ∀ s1 s2 s3 : Session, s2.pending ⊆ s1.pending → s3.pending ⊆ s2.pending → s3.pending ⊆ s1.pending :=
    fun _ _ _ h1 h2 => List.Subset.trans h2 h1
  have htake : ∀ {α : Type} (id : LaunchId) {f : Launch → SessionM α}, (∀ l, Local (f l)) →
      Leads (fun s s' => s'.pending ⊆ s.pending) (Session.takePending id >>= f) := fun id _ hf =>
    (fewer_takePending id).bind htrans fun l => hlocal (hf l)
  cases op with
  | readField f width => exact fun p hp => .inl (hlocal (local_readField f width) s hp)
  | user op =>
    by_cases hop : ∃ k args, op = .launch k args
    · obtain ⟨k, args, rfl⟩ := hop
      exact h.pending_launch
    · suffices hsub : (endOf (op.act s)).pending ⊆ s.pending from
        fun p hp => .inl (hsub (step_snd ▸ hp))
      cases op with
      | field name shape elem =>
        refine hfewer (fun s => ?_) _
        rw [Books.createField_eq rfl]
        split
        · exact .refl _
        · split <;> exact .refl _
      | texture name dims format storage => exact hfewer (hsame sameStore_createTexture) _
      | write f words => exact hfewer (hlocal (local_writeField f words)) _
      | fill f value => exact hfewer (hlocal (local_fillField f value)) _
      | read f => exact hfewer (hlocal ((local_readField f 4).bind fun _ => local_pure _)) _
      | kernel source scope templates =>
        exact hfewer (hsame ((prepared_kernel source scope templates).imp fun _ _ => Prepared.sameStore)) _
      | launch k args => exact absurd ⟨k, args, rfl⟩ hop
      | wait id =>
        refine hfewer (htake id fun l => ?_) _
        refine local_poll.bind fun _ => local_poll.bind fun _ => local_get.bind fun _ => ?_
        exact local_release.bind fun _ => local_ofExcept
      | discard id => exact hfewer (htake id fun l => local_release) _
      | tick now => exact hfewer (hsame fun _ => ⟨rfl, rfl, rfl, rfl, rfl⟩) _

/-! ## 4. All operations -/

theorem books_afterAll (settings : Settings) (clock : Nat) (ops : List BufferOp) :
    ∃ m, Books m [] (({ settings, clock } : Session).afterAll ops) := by
  induction ops using List.reverseRecOn with
  | nil => exact ⟨{}, .start settings clock⟩
  | append_singleton ops op ih =>
    obtain ⟨m, h⟩ := ih
    rw [afterAll_concat]
    exact h.after op

theorem requested_afterAll (settings : Settings) (clock : Nat) (ops : List BufferOp) :
    ∀ p ∈ (({ settings, clock } : Session).afterAll ops).pending, ∃ i op, ops[i]? = some op
      ∧ Requested (({ settings, clock } : Session).afterAll (ops.take i)) op p := by
  induction ops using List.reverseRecOn with
  | nil => exact forall_mem_nil _
  | append_singleton ops op ih =>
    intro p hp
    rw [afterAll_concat] at hp
    obtain ⟨m, h⟩ := books_afterAll settings clock ops
    rcases h.pending_after p hp with hp | hp
    · obtain ⟨i, op', hop', hreq⟩ := ih p hp
      obtain ⟨hi, -⟩ := List.getElem?_eq_some_iff.1 hop'
      refine ⟨i, op', by rw [getElem?_append_left hi, hop'], ?_⟩
      rwa [take_append_of_le_length (Nat.le_of_lt hi)]
    · refine ⟨ops.length, op, by simp, ?_⟩
      rwa [take_left]

/-- The buffers of a session: no buffer is free and lent, or lent twice; all that a pool has made
are there; and requests take the first free buffer that is large enough. -/
structure Conserved (s : Session) : Prop where
  apart : ((s.pools.free ++ s.lent).map fun x => x.2.buffer).Nodup
  counted : ∀ u, (s.pools.get u).free.length + (s.lent.filter (·.1 = u)).length = (s.pools.get u).allocations
  request : ∀ u size, FirstFit (s.pools.get u) s.device size ((s.pools.get u).get s.device size)

/-- After any operations, the pools of a session have all their buffers, and a launch that is
pending has the buffers that it has asked for. -/
theorem pools_conserved (settings : Settings) (clock : Nat) (ops : List BufferOp) :
    Conserved (({ settings, clock } : Session).afterAll ops) ∧
    ∀ p ∈ (({ settings, clock } : Session).afterAll ops).pending, ∃ i op, ops[i]? = some op
      ∧ Requested (({ settings, clock } : Session).afterAll (ops.take i)) op p := by
  obtain ⟨m, h⟩ := books_afterAll settings clock ops
  refine ⟨⟨?_, fun u => ?_, fun u size => firstFit_get _ _ size⟩, requested_afterAll settings clock ops⟩
  · have hapart := (List.nodup_append.1 h.custody.apart).2.1
    rwa [List.append_nil] at hapart
  · rw [← h.counted u, countOf_append, countOf_free, List.append_nil, ← List.countP_eq_length_filter]
    rfl

end ArrayKernel
