import ArrayKernel.Proofs.Field.Layout
import ArrayKernel.Proofs.Session.Custody

/-!
# What a session shows

To its users a session is a list of fields with their words, and a list of launches that are
pending. `Shows` relates a session to this view; the steps of which operations are made do not
change it.
-/

namespace ArrayKernel

open Number List Session

variable {ps : Pools} {u : Usage} {p : Pool} {b : PooledBuffer} {size : Nat} {s' : Session}
  {x : Usage × PooledBuffer} {st : StoredField} {data : Array UInt8}

/-! ## 1. Loans of a session -/

def Pools.free (ps : Pools) : List (Usage × PooledBuffer) :=
  ps.field.free.map (.field, ·) ++ (ps.args.free.map
    (.args, ·) ++ (ps.rets.free.map (.rets, ·) ++ ps.staging.free.map (.staging, ·)))

theorem Pools.free_perm (h : (ps.get u).free.Perm (b :: p.free)) :
    ps.free.Perm ((u, b) :: (ps.set u p).free) := by
  have hmap := h.map (u, ·)
  cases u with
  | field => exact hmap.append_right _
  | args => exact ((hmap.append_right _).append_left _).trans perm_middle
  | rets =>
    exact ((((hmap.append_right _).append_left _).trans perm_middle).append_left _).trans perm_middle
  | staging =>
    refine ((((hmap.append_left _).trans perm_middle).append_left _).trans perm_middle |>.append_left _).trans ?_
    exact perm_middle

theorem Pools.free_giveBack :
    (ps.set u ((ps.get u).giveBack b)).free.Perm ((u, b) :: ps.free) := by
  have hget : (ps.set u ((ps.get u).giveBack b)).get u = (ps.get u).giveBack b := by rw [Pools.get_set, if_pos rfl]
  have hset : (ps.set u ((ps.get u).giveBack b)).set u (ps.get u) = ps := by cases u <;> rfl
  have h : ((ps.set u ((ps.get u).giveBack b)).get u).free.Perm (b :: (ps.get u).free) := by
    rw [hget]
    exact perm_append_comm
  have hfree := Pools.free_perm h
  rwa [hset] at hfree

/-- What a request to a pool is answered with: the first free buffer that is large enough, or a new
one if there is none. -/
inductive FirstFit (p : Pool) (d : Device) (size : Nat) : PooledBuffer × Pool × Device → Prop where
  | reused {before : List PooledBuffer} {b : PooledBuffer} {after : List PooledBuffer} : p.free
    = before ++ b :: after → (∀ x ∈ before, x.capacity < max size 4) → max size 4 ≤ b.capacity →
    FirstFit p d size (b, { p with free := before ++ after }, d)
  | made : (∀ x ∈ p.free, x.capacity < max size 4) →
    FirstFit p d size (⟨⟨d.buffers.size⟩, max size 4⟩, { p with allocations := p.allocations + 1 },
      { d with buffers := d.buffers.push (.zeroed s!"tessera_pool_{p.allocations + 1}" (max size 4) p.usage) })

theorem Pool.takeFirst?_eq_some {free rest : List PooledBuffer}
    (h : takeFirst? size free = some (b, rest)) :
    ∃ before after, free = before ++ b :: after ∧ rest = before ++ after ∧ (∀ x ∈ before, x.capacity < size)
      ∧ size ≤ b.capacity := by
  induction free generalizing rest with
  | nil => cases h
  | cons x free ih =>
    rw [takeFirst?] at h
    split at h
    · rename_i hle
      cases h
      exact ⟨[], free, rfl, rfl, forall_mem_nil _, hle⟩
    · rename_i hlt
      obtain ⟨⟨y, others⟩, hy, heq⟩ := Option.map_eq_some_iff.1 h
      cases heq
      obtain ⟨before, after, rfl, rfl, hsmall, hle⟩ := ih hy
      exact ⟨x :: before, after, rfl, rfl, forall_mem_cons.2 ⟨by omega, hsmall⟩, hle⟩

theorem Pool.takeFirst?_eq_none {free : List PooledBuffer} (h : takeFirst? size free = none) :
    ∀ x ∈ free, x.capacity < size := by
  induction free with
  | nil => exact forall_mem_nil _
  | cons x free ih =>
    rw [takeFirst?] at h
    split at h
    · cases h
    · exact forall_mem_cons.2 ⟨by omega, ih (Option.map_eq_none_iff.1 h)⟩

theorem firstFit_get (p : Pool) (d : Device) (size : Nat) : FirstFit p d size (p.get d size) := by
  unfold Pool.get
  dsimp only
  cases hfirst : Pool.takeFirst? (max size Pool.leastSize) p.free with
  | some x =>
    obtain ⟨b, rest⟩ := x
    obtain ⟨before, after, hfree, rfl, hsmall, hle⟩ := Pool.takeFirst?_eq_some hfirst
    exact .reused hfree hsmall hle
  | none => exact .made (Pool.takeFirst?_eq_none hfirst)

theorem Pools.tally_set (husage : p.usage = (ps.get u).usage)
    (hcount : p.allocations = (ps.get u).allocations) (v : Usage) :
    ((ps.set u p).get v).usage = (ps.get v).usage ∧ ((ps.set u p).get v).allocations = (ps.get v).allocations := by
  rw [Pools.get_set]
  split
  · subst v
    exact ⟨husage, hcount⟩
  · exact ⟨rfl, rfl⟩

def countOf (u : Usage) (xs : List (Usage × PooledBuffer)) : Nat := xs.countP (·.1 = u)

theorem countOf_perm {xs ys : List (Usage × PooledBuffer)} (h : xs.Perm ys) :
    countOf u xs = countOf u ys :=
  h.countP_eq _

theorem countOf_append (u : Usage) (xs ys : List (Usage × PooledBuffer)) :
    countOf u (xs ++ ys) = countOf u xs + countOf u ys :=
  countP_append

theorem countOf_cons {v : Usage} {xs : List (Usage × PooledBuffer)} :
    countOf u ((v, b) :: xs) = countOf u xs + if u = v then 1 else 0 := by
  rw [countOf, countP_cons, countOf]
  simp only [decide_eq_true_eq, eq_comm (a := u)]

theorem countOf_map (u v : Usage) (bs : List PooledBuffer) :
    countOf u (bs.map (v, ·)) = if u = v then bs.length else 0 := by
  induction bs with
  | nil => split <;> rfl
  | cons b bs ih =>
    rw [map_cons, countOf_cons, ih]
    split
    · rfl
    · rfl

theorem countOf_free (ps : Pools) (u : Usage) : countOf u ps.free = (ps.get u).free.length := by
  simp only [Pools.free, countOf_append, countOf_map]
  cases u <;> simp [Pools.get]

def Session.lent (s : Session) : List (Usage × PooledBuffer) :=
  s.pending.flatMap fun p => p.2.buffers.toList

/-- A launch is done, and its result is there: zeros, as no shader has run. -/
structure Settled (bs : Array Buffer) (l : Launch) : Prop where
  outcome : l.outcome = .ok ()
  size : l.retBytes = (l.ret.map Ty.size).getD 0 * 4
  none : l.retBytes = 0 → l.buffers.staging = none
  staging : l.retBytes ≠ 0 → ∃ x b, l.buffers.staging = some x ∧ bs[x.buffer.index]? = some b ∧ b.usage = .staging
    ∧ b.read l.retBytes = Array.replicate l.retBytes 0

/-! ## 2. The view -/

/-- Fields with their words, and pending launches with the types of their results. -/
structure FieldMap where
  fields : List (FieldInfo × List UInt32) := []
  pending : List (LaunchId × Option Ty) := []
  submitted : Nat := 0

def FieldMap.words? (m : FieldMap) (f : FieldInfo) : Option (List UInt32) :=
  match m.fields[f.id]? with
  | some (g, ws) => if g = f then some ws else none
  | none => none

def contents (bs : Array Buffer) (f : StoredField) : List UInt32 :=
  wordsOfBytes (bs.getD f.buffer.index default).bytes

/-- What a session shows while an operation has taken some buffers. -/
structure Shows (m : FieldMap) (taken : List (Usage × PooledBuffer)) (s : Session) : Prop where
  custody : Custody s.device.buffers s.fields (s.pools.free ++ (s.lent ++ taken))
  pools : ∀ u, (s.pools.get u).usage = u
  settled : ∀ p ∈ s.pending, Settled s.device.buffers p.2
  distinct : (s.pending.map Prod.fst).Nodup
  earlier : ∀ p ∈ s.pending, p.1.index < s.submitted
  numbered : ∀ (i : Nat) (f : StoredField), s.fields[i]? = some f → f.info.id = i
  fields : s.fields.toList.map (fun f => (f.info, contents s.device.buffers f)) = m.fields
  pending : s.pending.map (fun p => (p.1, p.2.ret)) = m.pending
  submitted : s.submitted = m.submitted

/-- A session all of whose buffers are accounted for: each that a pool has made is free, or a
pending launch has it, or it has been taken. -/
structure Books (m : FieldMap) (taken : List (Usage × PooledBuffer)) (s : Session) :
    Prop extends Shows m taken s where
  counted : ∀ u, countOf u (s.pools.free ++ (s.lent ++ taken)) = (s.pools.get u).allocations

structure SameStore (s s' : Session) : Prop where
  buffers : s'.device.buffers = s.device.buffers
  fields : s'.fields = s.fields
  pools : s'.pools = s.pools
  pending : s'.pending = s.pending
  submitted : s'.submitted = s.submitted

namespace Shows

variable {m : FieldMap} {taken : List (Usage × PooledBuffer)} {s : Session} {bs : Array Buffer}
  {f : StoredField} {id : BufferId} {l : Launch} {α β : Type}

theorem contents_push (h : IsStored bs f) {b : Buffer} :
    contents (bs.push b) f = contents bs f := by
  obtain ⟨c, hc, -⟩ := h
  rw [contents, contents, Array.getD_eq_getD_getElem?, Array.getD_eq_getD_getElem?, getElem?_push_of_some hc, hc]

theorem contents_written (h : f.buffer ≠ id) : contents (written bs id data) f = contents bs f := by
  have hne : id.index ≠ f.buffer.index := fun heq => h (congrArg BufferId.mk heq).symm
  rw [contents, contents, Array.getD_eq_getD_getElem?, Array.getD_eq_getD_getElem?, Array.getElem?_modify, if_neg hne]

theorem settled_push (h : Settled bs l) {b : Buffer} : Settled (bs.push b) l :=
  { h with
    staging := fun hne => by
      obtain ⟨x, c, hx, hc, hrest⟩ := h.staging hne
      exact ⟨x, c, hx, getElem?_push_of_some hc, hrest⟩ }

theorem settled_written (h : Settled bs l)
    (hid : ∀ x, l.buffers.staging = some x → x.buffer ≠ id) : Settled (written bs id data) l :=
  { h with
    staging := fun hne => by
      obtain ⟨x, b, hx, hb, hrest⟩ := h.staging hne
      have hother : id.index ≠ x.buffer.index := fun heq => hid x hx (congrArg BufferId.mk heq).symm
      refine ⟨x, b, hx, ?_, hrest⟩
      rw [Array.getElem?_modify, if_neg hother]
      exact hb }

theorem mem_lent {p : LaunchId × Launch} (hp : p ∈ s.pending) {x : PooledBuffer}
    (hx : p.2.buffers.staging = some x) : (.staging, x) ∈ s.lent := by
  refine mem_flatMap.2 ⟨p, hp, mem_filterMap.2 ⟨(.staging, some x), ?_, rfl⟩⟩
  rw [← hx]
  simp

theorem taken_ne_lent (h : Shows m taken s) {y : Usage × PooledBuffer} (hx : x ∈ taken)
    (hy : y ∈ s.lent) : y.2.buffer ≠ x.2.buffer := by
  have hloans := (nodup_append.1 h.custody.apart).2.1
  rw [map_append, map_append] at hloans
  exact (nodup_append.1 (nodup_append.1 hloans).2.1).2.2 _ (mem_map_of_mem hy) _ (mem_map_of_mem hx)

structure SameResources (s s' : Session) : Prop where
  fields : s'.fields = s.fields
  textures : s'.textures = s.textures

theorem run_bind {x : SessionM α} {f : α → SessionM β} {a : α} (h : x s = .ok a s') :
    (x >>= f) s = f a s' := by
  show EStateM.bind x f s = _
  rw [EStateM.bind, h]

theorem run_bind_error {x : SessionM α} {f : α → SessionM β} {e : DeviceError}
    (h : x s = .error e s') : (x >>= f) s = .error e s' := by
  show EStateM.bind x f s = _
  rw [EStateM.bind, h]

theorem run_get (f : Session → SessionM β) (s : Session) : (get >>= f) s = f s s := rfl

/-- The buffer of a field is there exactly if the view has the field. -/
theorem fieldBuffer_cases (h : Shows m taken s) (f : FieldInfo) :
    (∃ st, s.fields[f.id]? = some st ∧ st.info = f ∧ s.fieldBuffer f = .ok st.buffer
      ∧ m.words? f = some (contents s.device.buffers st)) ∨
    (s.fieldBuffer f = .error (.unknownResource f.name) ∧ m.words? f = none) := by
  have hget : m.fields[f.id]? = s.fields[f.id]?.map fun st => (st.info, contents s.device.buffers st) := by
    rw [← h.fields, getElem?_map, Array.getElem?_toList]
  cases hst : s.fields[f.id]? with
  | none =>
    rw [hst] at hget
    exact .inr ⟨by simp [fieldBuffer, hst], by simp [FieldMap.words?, hget]⟩
  | some st =>
    rw [hst] at hget
    by_cases hf : st.info = f
    · exact .inl ⟨st, rfl, hf, by simp [fieldBuffer, hst, hf], by simp [FieldMap.words?, hget, hf]⟩
    · exact .inr ⟨by simp [fieldBuffer, hst, hf], by simp [FieldMap.words?, hget, hf]⟩

theorem stored (h : Shows m taken s) {i : Nat} (hst : s.fields[i]? = some st) :
    IsStored s.device.buffers st :=
  h.custody.fields st (Array.mem_of_getElem? hst)

theorem buffer_ne (h : Shows m taken s) {i j : Nat} {st' : StoredField}
    (hst : s.fields[i]? = some st) (hst' : s.fields[j]? = some st') (hij : i ≠ j) :
    st'.buffer ≠ st.buffer := by
  have hnodup := (nodup_append.1 h.custody.apart).1
  have hi : (s.fields.toList.map (·.buffer))[i]? = some st.buffer := by simp [hst]
  have hj : (s.fields.toList.map (·.buffer))[j]? = some st'.buffer := by simp [hst']
  intro heq
  rw [heq] at hj
  obtain ⟨hlt, -⟩ := List.getElem?_eq_some_iff.1 hi
  exact hij ((getElem?_inj hlt hnodup).1 (hi.trans hj.symm))

end Shows

namespace Books

open Shows

variable {m : FieldMap} {taken taken' : List (Usage × PooledBuffer)} {s : Session}
  {shape : List UInt64} {name : String} {elem : Ty}

theorem start (settings : Settings) (clock : Nat) : Books {} [] { settings, clock } where
  counted u := by cases u <;> rfl
  custody := ⟨nodup_nil, forall_mem_nil _, fun _ h => (Array.not_mem_empty _ h).elim,
    fun _ h => (Array.not_mem_empty _ h).elim⟩
  pools u := by cases u <;> rfl
  settled := forall_mem_nil _
  distinct := nodup_nil
  earlier := forall_mem_nil _
  numbered _ _ h := by cases h
  fields := rfl
  pending := rfl
  submitted := rfl

theorem perm (h : Books m taken s) (hp : taken.Perm taken') : Books m taken' s :=
  have hp := (hp.append_left s.lent).append_left s.pools.free
  { h with custody := h.custody.perm hp, counted := fun u => (countOf_perm hp).symm.trans (h.counted u) }

theorem move (h : Books m taken s) {pools : Pools}
    (hp : (s.pools.free ++ (s.lent ++ taken)).Perm (pools.free ++ (s.lent ++ taken')))
    (htally : ∀ u, (pools.get u).usage = (s.pools.get u).usage ∧
      (pools.get u).allocations = (s.pools.get u).allocations) :
    Books m taken' { s with pools } :=
  { h with
    custody := h.custody.perm hp
    pools := fun u => (htally u).1.trans (h.pools u)
    counted := fun u => (countOf_perm hp).symm.trans ((h.counted u).trans (htally u).2.symm) }

theorem congr (h : Books m taken s) (hs : SameStore s s') : Books m taken s' := by
  have hlent : s'.lent = s.lent := by rw [lent, lent, hs.pending]
  refine ⟨⟨?_, ?_, ?_, ?_, ?_, ?_, ?_, ?_, ?_⟩, ?_⟩
  · rw [hs.buffers, hs.fields, hs.pools, hlent]
    exact h.custody
  · rw [hs.pools]
    exact h.pools
  · rw [hs.buffers, hs.pending]
    exact h.settled
  · rw [hs.pending]
    exact h.distinct
  · rw [hs.pending, hs.submitted]
    exact h.earlier
  · rw [hs.fields]
    exact h.numbered
  · rw [hs.fields, hs.buffers]
    exact h.fields
  · rw [hs.pending]
    exact h.pending
  · rw [hs.submitted]
    exact h.submitted
  · rw [hs.pools, hlent]
    exact h.counted

/-! ## 3. Buffers on loan -/

theorem write (h : Books m taken s) (hx : x ∈ taken) (hu : x.1 ≠ .rets) {d : Device}
    (hd : d.buffers = written s.device.buffers x.2.buffer data) :
    Books m taken { s with device := d } := by
  have hmem : x ∈ s.pools.free ++ (s.lent ++ taken) := mem_append_right _ (mem_append_right _ hx)
  obtain ⟨b, hb, husage, -⟩ := h.custody.loans x hmem
  refine ⟨⟨?_, h.pools, fun p hp => ?_, h.distinct, h.earlier, h.numbered, ?_, h.pending, h.submitted⟩, h.counted⟩
  · show Custody d.buffers _ _
    rw [hd]
    exact h.custody.write hb (husage ▸ hu) data
  · show Settled d.buffers p.2
    rw [hd]
    exact settled_written (h.settled p hp) (fun y hy => h.taken_ne_lent hx (mem_lent hp hy))
  · rw [← h.fields]
    refine map_congr_left fun f hf => ?_
    show (f.info, contents d.buffers f) = _
    rw [hd, contents_written (h.custody.field_ne_loan (Array.mem_toList_iff.1 hf) hmem)]

/-- A step takes a buffer with a property, and changes nothing that is shown. -/
def Lends (u : Usage) (P : PooledBuffer → Prop) (step : SessionM PooledBuffer) : Prop :=
  ∀ m taken s, Books m taken s →
    ∃ b s', step s = .ok b s' ∧ Books m ((u, b) :: taken) s' ∧ P b ∧ SameResources s s'

theorem lends_acquire (u : Usage) (size : Nat) : Lends u (size ≤ ·.capacity) (acquire u size) := by
  intro m taken s h
  have hfit := firstFit_get (s.pools.get u) s.device size
  refine ⟨((s.pools.get u).get s.device size).1, { s with
    pools := s.pools.set u ((s.pools.get u).get s.device size).2.1, device :=
      ((s.pools.get u).get s.device size).2.2 }, rfl, ?_⟩
  generalize (s.pools.get u).get s.device size = x at hfit
  cases hfit with
  | @reused before b after hfree hsmall hle =>
    have hperm : (s.pools.get u).free.Perm (b :: (before ++ after)) := hfree ▸ perm_middle
    let pool : Pool := { s.pools.get u with free := before ++ after }
    have hmove : (s.pools.free ++ (s.lent ++ taken)).Perm ((s.pools.set u pool).free ++ (s.lent ++ (u, b) :: taken)) :=
      ((Pools.free_perm hperm).append_right _).trans
        ((perm_middle.symm).trans (perm_middle.symm.append_left _))
    exact ⟨h.move hmove (Pools.tally_set rfl rfl), Nat.le_trans (Nat.le_max_left ..) hle, rfl, rfl⟩
  | made hsmall =>
    let pool : Pool := { s.pools.get u with allocations := (s.pools.get u).allocations + 1 }
    let b : PooledBuffer := ⟨⟨s.device.buffers.size⟩, max size 4⟩
    have hfree : (s.pools.set u pool).free = s.pools.free := by cases u <;> rfl
    have hmove : ((u, b) :: (s.pools.free ++ (s.lent ++ taken))).Perm
        ((s.pools.set u pool).free ++ (s.lent ++ (u, b) :: taken)) := by
      rw [hfree]
      exact perm_middle.symm.trans (perm_middle.symm.append_left _)
    refine ⟨⟨⟨?_, fun v => ?_, fun p hp => settled_push (h.settled p hp), h.distinct, h.earlier,
      h.numbered, ?_, h.pending, h.submitted⟩, fun v => ?_⟩, Nat.le_max_left .., rfl, rfl⟩
    · show Custody (s.device.buffers.push (.zeroed _ _ (s.pools.get u).usage)) _
        ((s.pools.set u pool).free ++ (s.lent ++ (u, b) :: taken))
      rw [h.pools u]
      exact h.custody.lend.perm hmove
    · show ((s.pools.set u pool).get v).usage = v
      rw [Pools.get_set]
      split
      · subst v
        exact h.pools u
      · exact h.pools v
    · rw [← h.fields]
      refine map_congr_left fun f hf => ?_
      exact congrArg (Prod.mk f.info) (contents_push (h.custody.fields f (Array.mem_toList_iff.1 hf)))
    · show countOf v ((s.pools.set u pool).free ++ (s.lent ++ (u, b) :: taken))
        = ((s.pools.set u pool).get v).allocations
      rw [← countOf_perm hmove, countOf_cons, h.counted, Pools.get_set]
      split
      · subst v
        rfl
      · rfl

theorem lends_acquireWith {words : List UInt32} :
    Lends .args (words.length * 4 ≤ ·.capacity) (acquireWith words) := by
  intro m taken s h
  obtain ⟨b, s1, hb, h1, hle, hsame⟩ := lends_acquire .args (words.length * 4) _ _ _ h
  refine ⟨b, { s1 with device := s1.device.writeBuffer b.buffer 0 (bytesOfWords words) }, ?_, ?_,
    hle, hsame.fields, hsame.textures⟩
  · unfold acquireWith
    rw [run_bind hb]
    rfl
  · exact h1.write (mem_cons_self ..) (by simp) rfl

theorem Lends.optional {P : PooledBuffer → Prop} {step : SessionM PooledBuffer}
    (hstep : Lends u P step) (c : Prop) [Decidable c] (h : Books m taken s) :
    ∃ o s', (∀ {β : Type} (f : Option PooledBuffer → SessionM β),
        (if c then pure none >>= f else (some <$> step) >>= f : SessionM β) s = f o s')
      ∧ Books m ((o.map (u, ·)).toList ++ taken) s' ∧ (o = none ↔ c) ∧ (∀ b, o = some b → P b) ∧
        SameResources s s' := by
  by_cases hc : c
  · refine ⟨none, s, fun f => ?_, h, by simp [hc], nofun, rfl, rfl⟩
    rw [if_pos hc]
    rfl
  · obtain ⟨b, s', hb, h', hP, hsame⟩ := hstep _ _ _ h
    refine ⟨some b, s', fun f => ?_, h', by simp [hc], ?_, hsame⟩
    · rw [if_neg hc]
      have hsome : (some <$> step) s = .ok (some b) s' := by
        show EStateM.map _ _ s = _
        rw [EStateM.map, hb]
      exact run_bind hsome
    · rintro _ ⟨⟩
      exact hP

theorem giveBack (h : Books m ((u, b) :: taken) s) :
    Books m taken { s with pools := s.pools.set u ((s.pools.get u).giveBack b) } := by
  have hmove : (s.pools.free ++ (s.lent ++ (u, b) :: taken)).Perm
      ((s.pools.set u ((s.pools.get u).giveBack b)).free ++ (s.lent ++ taken)) :=
    ((perm_middle.append_left _).trans perm_middle).trans (s.pools.free_giveBack.symm.append_right _)
  exact h.move hmove (Pools.tally_set rfl rfl)

theorem release {bufs : LaunchBuffers} (h : Books m (bufs.toList ++ taken) s) :
    ∃ s', release bufs s = .ok () s' ∧ Books m taken s' ∧ SameResources s s' := by
  unfold Session.release
  generalize bufs.toList = xs at h ⊢
  induction xs generalizing s with
  | nil => exact ⟨s, rfl, h, rfl, rfl⟩
  | cons x xs ih =>
    obtain ⟨s', hrun, h', hsame⟩ := ih h.giveBack
    refine ⟨s', ?_, h', hsame.fields, hsame.textures⟩
    exact hrun

/-! ## 4. Fields -/

theorem writeStored (h : Books m taken s) (hst : s.fields[st.info.id]? = some st) {ws : List UInt32}
    (hsize : st.info.bytes = .ok (bytesOfWords ws).size) :
    Books { m with fields := m.fields.set st.info.id (st.info, ws) } taken
      { s with device := s.device.writeBuffer st.buffer 0 (bytesOfWords ws) } := by
  obtain ⟨b, hb, husage, hbytes⟩ := h.stored hst
  have hmem : st ∈ s.fields := Array.mem_of_getElem? hst
  refine ⟨⟨h.custody.write hb (by rw [husage]; nofun) _, h.pools, fun p hp => ?_, h.distinct,
    h.earlier, h.numbered, ?_, h.pending, h.submitted⟩, h.counted⟩
  · refine settled_written (h.settled p hp) (fun x hx heq => ?_)
    have hloan : (.staging, x) ∈ s.pools.free ++ (s.lent ++ taken) :=
      mem_append_right _ (mem_append_left _ (mem_lent hp hx))
    exact h.custody.field_ne_loan hmem hloan heq.symm
  · rw [← h.fields]
    apply ext_getElem?
    intro i
    rw [getElem?_map, getElem?_set, getElem?_map, length_map, Array.getElem?_toList]
    by_cases hi : st.info.id = i
    · obtain ⟨hlt, -⟩ := Array.getElem?_eq_some_iff.1 hst
      rw [if_pos hi, ← hi, hst, if_pos (by simpa using hlt)]
      have hwritten : contents (written s.device.buffers st.buffer (bytesOfWords ws)) st = ws := by
        rw [contents, Array.getD_eq_getD_getElem?, Array.getElem?_modify, if_pos rfl, hb]
        show wordsOfBytes (b.write 0 (bytesOfWords ws)).bytes = ws
        rw [Buffer.bytes_write_zero (Except.ok.inj (hsize.symm.trans hbytes)), wordsOfBytes_bytesOfWords]
      exact congrArg (fun x => some (st.info, x)) hwritten
    · rw [if_neg hi]
      cases hst' : s.fields[i]? with
      | none => rfl
      | some st' =>
        refine congrArg (fun x => some (st'.info, x)) ?_
        exact contents_written (h.buffer_ne hst hst' hi)

theorem createField_eq {info : FieldInfo}
    (hinfo : info = { id := s.fields.size, name, shape, elem }) :
    createField name shape elem s = if shape.isEmpty || shape.contains 0 then
        .error (.invalidShape name "shape must be non-empty with positive extents") s
      else match info.bytes with
        | .error e => .error (.overflow e) s
        | .ok size => .ok info { s with
            fields := s.fields.push ⟨info, ⟨s.device.buffers.size⟩⟩
            device := (s.device.createBuffer name size .field).2 } := by
  subst hinfo
  unfold createField
  split
  · rfl
  · show EStateM.bind (sized _) _ s = _
    cases FieldInfo.bytes _ <;> rfl

theorem size_fields (h : Books m taken s) : s.fields.size = m.fields.length := by
  rw [← h.fields, length_map, Array.length_toList]

theorem createStored {info : FieldInfo} (h : Books m taken s) (hid : info.id = m.fields.length)
    (hsize : info.bytes = .ok size) :
    Books { m with fields := m.fields ++ [(info, List.replicate info.storage 0)] } taken { s with
      fields := s.fields.push ⟨info, ⟨s.device.buffers.size⟩⟩
      device := (s.device.createBuffer name size .field).2 } := by
  refine ⟨⟨h.custody.store name hsize, h.pools, fun p hp => settled_push (h.settled p hp),
    h.distinct, h.earlier, ?_, ?_, h.pending, h.submitted⟩, h.counted⟩
  · intro i f hf
    show f.info.id = i
    rw [Array.getElem?_push] at hf
    split at hf
    · cases hf
      exact hid.trans (h.size_fields.symm.trans (.symm ‹_›))
    · exact h.numbered i f hf
  · rw [← h.fields, Array.toList_push, map_append, map_singleton]
    refine congrArg₂ (· ++ ·) (map_congr_left fun f hf => ?_) ?_
    · exact congrArg (Prod.mk f.info) (contents_push (h.custody.fields f (Array.mem_toList_iff.1 hf)))
    · obtain ⟨-, rfl⟩ := FieldInfo.bytes_ok hsize
      refine congrArg (fun x => [(info, x)]) ?_
      show wordsOfBytes ((s.device.buffers.push (.zeroed name (4 * info.storage) .field)).getD
        s.device.buffers.size default).bytes = _
      rw [Array.getD_eq_getD_getElem?, Array.getElem?_push_size]
      exact wordsOfBytes_replicate_zero

end Books

end ArrayKernel
