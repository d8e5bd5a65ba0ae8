import ArrayKernel.Proofs.Lowering.Discipline

/-!
# Steps of lowering

`Runs H C b m Q` says that the step `m`, started in the state `b` inside the blocks that `C`
describes, only appends code that passes the check, under ids of its own, and that `Q` holds of its
value. `Closed` deals with blocks that are opened and closed.
-/

namespace ArrayKernel.Lowering

open IR List Stmt

variable {fields : List FieldInfo} {b' b1 b2 b3 b : Builder} {s : Stmt} {kind : LoopKind}
  {f : Refusal → Refusal} {span : Span} {i : StmtId} {u : Unit} {o : Op} {ss : List Stmt} {d : Defs}

/-! ## 1. States -/

/-- Where lowering stands: the definitions of the tasks before, those of the blocks around, and the
type of the result. -/
structure Ctx where
  past : Defs
  here : Defs
  ret : Option Ty

namespace Ctx

def env (C : Ctx) (b : Builder) : Env := envOf b.fields C.past (C.here ++ defsOf b.block.toList)

def within (C : Ctx) (d : Defs) : Ctx := { C with here := d }

abbrev check (C : Ctx) (H : Host) (fields : List FieldInfo) : Check :=
  discipline H fields C.past C.ret

/-- The open block passes the check, and its ids are distinct and taken. -/
structure Good (H : Host) (C : Ctx) (b : Builder) : Prop where
  block : (C.check H b.fields).block C.here b.block.toList
  nodup : (idsOf b.block.toList).Nodup
  below : ∀ i ∈ idsOf b.block.toList, i < b.nextId

theorem env_within_nil {C : Ctx} :
    (C.within d).env { b with block := #[] } = envOf b.fields C.past d := by
  simp [env, within]

theorem check_implies (C : Ctx) {fields' : List FieldInfo} (hf : fields ⊆ fields') :
    (C.check H fields).Implies (C.check H fields') :=
  discipline_implies hf (.refl _) fun _ => id

end Ctx

/-- The second state comes from the first by appending statements with new ids to the open block and
by noting fields of the host. -/
structure Extends (H : Host) (b b' : Builder) : Prop where
  block : ∃ ss, b'.block.toList = b.block.toList ++ ss ∧ ∀ i ∈ idsOf ss, b.nextId ≤ i
  nextId : b.nextId ≤ b'.nextId
  tasks : b'.tasks = b.tasks
  ret : b'.ret = b.ret
  fields : b.fields ⊆ b'.fields
  host : ∀ f ∈ b'.fields, f ∈ b.fields ∨ H.field f

namespace Extends

variable {H : Host}

theorem refl (b : Builder) : Extends H b b where
  block := ⟨[], by simp, by simp⟩
  nextId := Nat.le_refl _
  tasks := rfl
  ret := rfl
  fields := .refl _
  host _ hf := .inl hf

theorem trans (h : Extends H b1 b2) (h' : Extends H b2 b3) : Extends H b1 b3 := by
  obtain ⟨ss, hss, hnew⟩ := h.block
  obtain ⟨ts, hts, hnew'⟩ := h'.block
  refine ⟨⟨ss ++ ts, by rw [hts, hss, append_assoc], fun i hi => ?_⟩, Nat.le_trans h.nextId h'.nextId,
    h'.tasks.trans h.tasks, h'.ret.trans h.ret, List.Subset.trans h.fields h'.fields, fun f hf =>
      (h'.host f hf).elim (h.host f) .inr⟩
  rw [idsOf_append] at hi
  rcases mem_append.1 hi with hi | hi
  · exact hnew i hi
  · exact Nat.le_trans h.nextId (hnew' i hi)

theorem env_le (h : Extends H b b') (C : Ctx) : C.env b ≤ C.env b' := by
  obtain ⟨ss, hss, _⟩ := h.block
  refine envOf_mono h.fields (.refl _) ?_
  rw [hss, defsOf_append, ← append_assoc]
  exact subset_append_left _ _

end Extends

variable {H : Host} {C : Ctx} {b : Builder} {α β : Type} {m : Lower α} {xs : List α} {a : α}
  {R : Env → β → Prop} {x : Except TypeError α} {Q : Env → α → Prop}

theorem Ctx.Good.push (hg : C.Good H b1) (he : Extends H b b1)
    (hs : (C.check H b1.fields).stmt (C.env b1).here s) (hn : (idsOf [s]).Nodup)
    (hr : ∀ i ∈ idsOf [s], b.nextId ≤ i ∧ i < b1.nextId)
    (hd : ∀ i ∈ idsOf [s], i ∉ idsOf b1.block.toList) :
    C.Good H { b1 with block := b1.block.push s } ∧ Extends H b { b1 with block := b1.block.push s } := by
  obtain ⟨ss, hss, hnew⟩ := he.block
  refine ⟨⟨?_, ?_, ?_⟩, ⟨⟨ss ++ [s], ?_, ?_⟩, he.nextId, he.tasks, he.ret, he.fields, he.host⟩⟩
  · simp only [Array.toList_push]
    exact Check.block_append.2 ⟨hg.block, hs, trivial⟩
  · simp only [Array.toList_push, idsOf_append]
    exact nodup_append.2 ⟨hg.nodup, hn, fun x hx y hy hxy => hd y hy (hxy ▸ hx)⟩
  · simp only [Array.toList_push, idsOf_append, mem_append]
    exact fun i hi => hi.elim (hg.below i) fun hi => (hr i hi).2
  · simp only [Array.toList_push, hss, append_assoc]
  · simp only [idsOf_append, mem_append]
    exact fun i hi => hi.elim (hnew i) fun hi => (hr i hi).1

/-! ## 2. Steps -/

def Runs (H : Host) (C : Ctx) (b : Builder) (m : Lower α) (Q : Env → α → Prop) : Prop :=
  C.Good H b → ∀ a b', m b = .ok a b' → C.Good H b' ∧ Extends H b b' ∧ Q (C.env b') a

theorem bind_ok {f : α → Lower β} {r : β} {b'' : Builder} (h : (m >>= f) b = .ok r b'') :
    ∃ a b', m b = .ok a b' ∧ f a b' = .ok r b'' := by
  simp only [bind, EStateM.bind] at h
  split at h
  · exact ⟨_, _, ‹_›, h⟩
  · cases h

theorem bind_of_ok {f : α → Lower β} (h : m b = .ok a b') : (m >>= f) b = f a b' := by
  simp only [bind, EStateM.bind, h]

theorem map_ok {f : α → β} {r : β} (h : (f <$> m) b = .ok r b') :
    ∃ a, m b = .ok a b' ∧ f a = r := by
  simp only [Functor.map, EStateM.map] at h
  split at h
  · cases h
    exact ⟨_, ‹_›, rfl⟩
  · cases h

theorem inLoop_ok (h : inLoop kind m b = .ok a b') :
    ∃ b1, m { b with loops := kind :: b.loops } = .ok a b1 ∧ b' = { b1 with loops := b1.loops.drop 1 } := by
  unfold inLoop at h
  split at h
  · cases h
    exact ⟨_, ‹_›, rfl⟩
  · cases h

theorem inFunction_ok {f : Origin × Span} (h : inFunction f m b = .ok a b') :
    ∃ b1, m { b with inlining := f :: b.inlining } = .ok a b1
      ∧ b' = { b1 with inlining := b1.inlining.drop 1 } := by
  unfold inFunction at h
  split at h
  · cases h
    exact ⟨_, ‹_›, rfl⟩
  · cases h

theorem mapError_ok (h : mapError f m b = .ok a b') : m b = .ok a b' := by
  unfold mapError at h
  split at h
  · cases h
    assumption
  · cases h

namespace Runs

variable {Q R : Env → α → Prop}

theorem pure (h : Q (C.env b) a) : Runs H C b (Pure.pure a) Q := by
  intro hg a' b' hm
  cases hm
  exact ⟨hg, .refl b, h⟩

theorem fail {cause : Cause} : Runs H C b (failAt span cause : Lower α) Q := by
  intro _ a b' hm
  cases hm

theorem bind {f : α → Lower β} {R : Env → β → Prop} (hm : Runs H C b m Q)
    (hf : ∀ a b', C.env b ≤ C.env b' → Q (C.env b') a → Runs H C b' (f a) R) :
    Runs H C b (m >>= f) R := by
  intro hg r b'' h
  obtain ⟨a, b', h1, h2⟩ := bind_ok h
  obtain ⟨hg', he, hq⟩ := hm hg a b' h1
  obtain ⟨hg'', he', hr⟩ := hf a b' (he.env_le C) hq hg' r b'' h2
  exact ⟨hg'', he.trans he', hr⟩

theorem imp (hm : Runs H C b m Q) (h : ∀ e a, C.env b ≤ e → Q e a → R e a) : Runs H C b m R := by
  intro hg a b' ha
  obtain ⟨hg', he, hq⟩ := hm hg a b' ha
  exact ⟨hg', he, h _ _ (he.env_le C) hq⟩

theorem map {f : α → β} {R : Env → β → Prop} (hm : Runs H C b m fun e a => R e (f a)) :
    Runs H C b (f <$> m) R := by
  intro hg r b' h
  obtain ⟨a, ha, rfl⟩ := map_ok h
  exact hm hg a b' ha

theorem discard (hm : Runs H C b m Q) : Runs H C b (Functor.discard m) fun _ _ => True :=
  map (hm.imp fun _ _ _ _ => trivial)

theorem typed {f : α → Lower β} {R : Env → β → Prop}
    (h : ∀ a, x = .ok a → Runs H C b (f a) R) : Runs H C b (Lowering.typed span x >>= f) R := by
  cases x with
  | ok a => simpa only [Lowering.typed, pure_bind] using h a rfl
  | error err =>
    intro _ a b' hm
    cases hm

theorem update {f : Builder → Builder} {R : Env → Unit → Prop}
    (hf : ∀ b, (f b).block = b.block ∧ (f b).nextId = b.nextId ∧ (f b).tasks = b.tasks ∧ (f b).ret = b.ret)
    (hfields : b.fields ⊆ (f b).fields) (hhost : ∀ x ∈ (f b).fields, x ∈ b.fields ∨ H.field x)
    (h : R (C.env (f b)) ()) : Runs H C b (modify f) R := by
  intro hg a b' hm
  cases hm
  obtain ⟨hblock, hid, htasks, hret⟩ := hf b
  refine ⟨⟨?_, ?_, ?_⟩, ⟨⟨[], ?_, by simp⟩, ?_, htasks, hret, hfields, hhost⟩, h⟩
  · rw [hblock]
    exact (C.check_implies hfields).block (List.Subset.refl _) _ hg.block
  · rw [hblock]; exact hg.nodup
  · rw [hblock, hid]; exact hg.below
  · rw [hblock, append_nil]
  · exact Nat.le_of_eq hid.symm

theorem get {f : Builder → Lower β} {R : Env → β → Prop} (h : Runs H C b (f b) R) :
    Runs H C b (MonadState.get >>= f) R := h

theorem inLoop (hm : Runs H C { b with loops := kind :: b.loops } m Q) :
    Runs H C b (Lowering.inLoop kind m) Q := by
  intro hg a b' h
  obtain ⟨b1, h1, rfl⟩ := inLoop_ok h
  obtain ⟨hg', he, hq⟩ := hm ⟨hg.block, hg.nodup, hg.below⟩ _ _ h1
  exact ⟨⟨hg'.block, hg'.nodup, hg'.below⟩, ⟨he.block, he.nextId, he.tasks, he.ret, he.fields, he.host⟩, hq⟩

theorem inFunction {f : Origin × Span} (hm : Runs H C { b with inlining := f :: b.inlining } m Q) :
    Runs H C b (Lowering.inFunction f m) Q := by
  intro hg a b' h
  obtain ⟨b1, h1, rfl⟩ := inFunction_ok h
  obtain ⟨hg', he, hq⟩ := hm ⟨hg.block, hg.nodup, hg.below⟩ _ _ h1
  exact ⟨⟨hg'.block, hg'.nodup, hg'.below⟩, ⟨he.block, he.nextId, he.tasks, he.ret, he.fields, he.host⟩, hq⟩

theorem mapError (hm : Runs H C b m Q) : Runs H C b (Lowering.mapError f m) Q :=
  fun hg _ _ h => hm hg _ _ (mapError_ok h)

end Runs

/-! ## 3. Emitting -/

theorem freshId_ok (h : freshId b = .ok i b') :
    i = b.nextId ∧ b' = { b with nextId := b.nextId + 1 } := by
  cases h
  exact ⟨rfl, rfl⟩

theorem push_ok (h : push s b = .ok u b') : b' = { b with block := b.block.push s } := by
  cases h
  rfl

theorem typed_ok (h : typed span x b = .ok a b') : x = .ok a ∧ b' = b := by
  cases x <;> cases h
  exact ⟨rfl, rfl⟩

theorem emit_ok (h : emit o b = .ok i b') :
    i = b.nextId ∧ b' = { b with nextId := b.nextId + 1, block := b.block.push (.op b.nextId o) } := by
  cases h
  exact ⟨rfl, rfl⟩

theorem Runs.emit (ho : OpOk H (C.env b) C.ret o) :
    Runs H C b (Lowering.emit o) fun e i => (i, Def.op o) ∈ e.here := by
  intro hg i b' h
  obtain ⟨rfl, rfl⟩ := emit_ok h
  have he : Extends H b { b with nextId := b.nextId + 1 } :=
    ⟨⟨[], by simp, by simp⟩, by simp, rfl, rfl, List.Subset.refl _, fun _ => .inl⟩
  have hg1 : C.Good H { b with nextId := b.nextId + 1 } :=
    ⟨hg.block, hg.nodup, fun i hi => Nat.lt_succ_of_lt (hg.below i hi)⟩
  have hid : idsOf [op b.nextId o] = [b.nextId] := rfl
  obtain ⟨hg2, he2⟩ := hg1.push (s := .op b.nextId o) he ho (by rw [hid]; simp)
    (by simp [hid]) (by
      intro i hi hb
      rw [hid, mem_singleton] at hi
      subst hi
      exact Nat.lt_irrefl _ (hg.below _ hb))
  refine ⟨hg2, he2, ?_⟩
  simp [Ctx.env, envOf, defs]

theorem Runs.emitValue {ty : Ty} (ho : OpOk H (C.env b) C.ret o) (hty : (Def.op o).ty? = some ty)
    (hflat : H.flat → ty.isStruct = false) :
    Runs H C b (Lowering.emitValue o) fun e x => Holds H e x ty :=
  (Runs.emit ho).bind fun _ _ _ hi => Runs.pure (Holds.stmt hi hty hflat)

/-! ## 4. Lists -/

theorem Runs.mapM {f : α → Lower β} {R : Env → α → β → Prop}
    (hmono : ∀ {e e' : Env} {x : α} {y : β}, e ≤ e' → R e x y → R e' x y)
    (hf : ∀ x ∈ xs, ∀ b', C.env b ≤ C.env b' → Runs H C b' (f x) fun e y => R e x y) :
    Runs H C b (xs.mapM f) fun e ys => Forall₂ (R e) xs ys := by
  induction xs generalizing b with
  | nil => exact .pure .nil
  | cons x xs ih =>
    rw [mapM_cons]
    refine (hf x (mem_cons_self ..) b (Env.le_refl _)).bind fun y b1 h1 hy => ?_
    refine (ih fun x' hx' b' hb' => hf x' (mem_cons_of_mem _ hx') b' (Env.le_trans h1 hb')).bind
      fun ys b2 h2 hys => ?_
    exact .pure (.cons (hmono h2 hy) hys)

theorem forall₂_mem_right {R : α → β → Prop} {ys : List β} (h : Forall₂ R xs ys) :
    ∀ y ∈ ys, ∃ x ∈ xs, R x y := by
  induction h with
  | nil => nofun
  | cons hxy _ ih =>
    intro z hz
    rcases mem_cons.1 hz with rfl | hz
    · exact ⟨_, mem_cons_self .., hxy⟩
    · obtain ⟨x, hx, hr⟩ := ih z hz
      exact ⟨x, mem_cons_of_mem _ hx, hr⟩

/-- The same where what is known about a result does not depend on what it comes from. -/
theorem Runs.mapAll {f : α → Lower β}
    (hmono : ∀ {e e' : Env} {y : β}, e ≤ e' → R e y → R e' y)
    (hf : ∀ x ∈ xs, ∀ b', C.env b ≤ C.env b' → Runs H C b' (f x) R) :
    Runs H C b (xs.mapM f) fun e ys => ys.length = xs.length ∧ ∀ y ∈ ys, R e y := by
  refine (Runs.mapM (R := fun e _ y => R e y) hmono hf).imp fun e ys _ h => ⟨h.length_eq.symm, fun y hy => ?_⟩
  obtain ⟨_, -, hr⟩ := forall₂_mem_right h y hy
  exact hr

theorem Runs.forM {f : α → Lower Unit}
    (hf : ∀ x ∈ xs, ∀ b', C.env b ≤ C.env b' → Runs H C b' (f x) fun _ _ => True) :
    Runs H C b (xs.forM f) fun _ _ => True := by
  induction xs generalizing b with
  | nil => exact .pure trivial
  | cons x xs ih =>
    refine (hf x (mem_cons_self ..) b (Env.le_refl _)).bind fun _ b1 h1 _ => ?_
    exact ih fun x' hx' b' hb' => hf x' (mem_cons_of_mem _ hx') b' (Env.le_trans h1 hb')

theorem Runs.foldlM {f : β → α → Lower β} {y : β}
    (hf : ∀ x ∈ xs, ∀ y b', C.env b ≤ C.env b' → R (C.env b') y → Runs H C b' (f y x) R)
    (hy : R (C.env b) y) : Runs H C b (xs.foldlM f y) R := by
  induction xs generalizing b y with
  | nil => exact .pure hy
  | cons x xs ih =>
    refine (hf x (mem_cons_self ..) y b (Env.le_refl _) hy).bind fun y' b1 h1 hy' => ?_
    exact ih (fun x' hx' z b' hb' hz => hf x' (mem_cons_of_mem _ hx') z b' (Env.le_trans h1 hb') hz) hy'

theorem Runs.flatMapM {f : α → Lower (List β)} {n : Nat}
    (hmono : ∀ {e e' : Env} {y : β}, e ≤ e' → R e y → R e' y)
    (hf : ∀ x ∈ xs, ∀ b', C.env b ≤ C.env b' →
      Runs H C b' (f x) fun e ys => ys.length = n ∧ ∀ y ∈ ys, R e y) :
    Runs H C b (xs.flatMapM f) fun e ys => ys.length = xs.length * n ∧ ∀ y ∈ ys, R e y := by
  induction xs generalizing b with
  | nil => exact .pure (by simp)
  | cons x xs ih =>
    rw [flatMapM_cons]
    refine (hf x (mem_cons_self ..) b (Env.le_refl _)).bind fun ys b1 h1 hys => ?_
    refine (ih fun x' hx' b' hb' => hf x' (mem_cons_of_mem _ hx') b' (Env.le_trans h1 hb')).bind
      fun zs b2 h2 hzs => ?_
    refine .pure ⟨?_, fun y hy => ?_⟩
    · rw [length_append, hys.1, hzs.1, length_cons, Nat.succ_mul, Nat.add_comm]
    · rcases mem_append.1 hy with hy | hy
      · exact hmono h2 (hys.2 y hy)
      · exact hzs.2 y hy

/-! ## 5. Blocks -/

/-- The open block is the same in both states, while ids may have been taken for others and fields
noted. -/
structure Frame (H : Host) (b b' : Builder) : Prop where
  same : b'.block = b.block
  nextId : b.nextId ≤ b'.nextId
  tasks : b'.tasks = b.tasks
  ret : b'.ret = b.ret
  fields : b.fields ⊆ b'.fields
  host : ∀ f ∈ b'.fields, f ∈ b.fields ∨ H.field f

namespace Frame

variable {b' : Builder} (h : Frame H b b')
include h

theorem extension : Extends H b b' :=
  ⟨⟨[], by rw [h.same, append_nil], by simp⟩, h.nextId, h.tasks, h.ret, h.fields, h.host⟩

theorem good (hg : C.Good H b) : C.Good H b' := by
  refine ⟨?_, ?_, fun i hi => Nat.lt_of_lt_of_le (hg.below i ?_) h.nextId⟩
  · rw [h.same]
    exact (C.check_implies h.fields).block (List.Subset.refl _) _ hg.block
  · rw [h.same]; exact hg.nodup
  · rwa [h.same] at hi

theorem here : (C.env b').here = (C.env b).here := by
  show C.here ++ defsOf b'.block.toList = _
  rw [h.same]
  rfl

theorem scopeOk {scope : Scope} (hs : ScopeOk H (C.env b) scope) :
    ScopeOk H (envOf b'.fields C.past (C.env b).here) scope :=
  hs.mono (envOf_mono_fields h.fields _ _)

end Frame

theorem Frame.nextId_succ : Frame H b { b with nextId := b.nextId + 1 } :=
  ⟨rfl, Nat.le_succ _, rfl, rfl, List.Subset.refl _, fun _ => .inl⟩

/-- A block that was opened in the state `b` inside `C` and is closed in the state `b'`. -/
structure Closed (H : Host) (C : Ctx) (b b' : Builder) (ss : List Stmt) :
    Prop extends Frame H b b' where
  block : (C.check H b'.fields).block C.here ss
  nodup : (idsOf ss).Nodup
  fresh : ∀ i ∈ idsOf ss, b.nextId ≤ i ∧ i < b'.nextId

theorem Closed.checked (h : Closed H C b b' ss) (hf : b'.fields ⊆ fields) :
    (C.check H fields).block C.here ss :=
  (C.check_implies hf).block (List.Subset.refl _) ss h.block

theorem captureInto_ok {start : Array Stmt}
    (h : captureInto start m b = .ok (ss, a) b') :
    ∃ b1, m { b with block := start } = .ok a b1 ∧ ss = b1.block.toList ∧ b' = { b1 with block := b.block } := by
  unfold captureInto at h
  split at h
  · cases h
    exact ⟨_, ‹_›, rfl, rfl⟩
  · cases h

theorem Runs.capture (hm : Runs H (C.within d) { b with block := #[] } m Q)
    (h : Lowering.capture m b = .ok (ss, a) b') :
    Closed H (C.within d) b b' ss ∧ Q (envOf b'.fields C.past (d ++ defsOf ss)) a := by
  obtain ⟨b1, hb1, rfl, rfl⟩ := captureInto_ok h
  obtain ⟨hg, he, hq⟩ := hm ⟨trivial, nodup_nil, by simp⟩ _ _ hb1
  obtain ⟨ss, hss, hnew⟩ := he.block
  have hall : b1.block.toList = ss := by simpa using hss
  exact ⟨⟨⟨rfl, he.nextId, he.tasks, he.ret, he.fields, he.host⟩, hg.block, hg.nodup,
    fun i hi => ⟨hnew i (hall ▸ hi), hg.below i hi⟩⟩, hq⟩

/-- A block that was closed before is opened again, perhaps with more definitions around it. -/
theorem Runs.captureInto {start : List Stmt} {b0 : Builder} {d' : Defs}
    (hstart : Closed H (C.within d) b0 b1 start) (hd : d ⊆ d') (hb : b1.nextId ≤ b.nextId)
    (hf : b1.fields ⊆ b.fields) (hm : Runs H (C.within d') { b with block := start.toArray } m Q)
    (h : Lowering.captureInto start.toArray m b = .ok (ss, a) b') :
    (C.check H b'.fields).block d' ss ∧ (idsOf ss).Nodup
      ∧ (∀ i ∈ idsOf ss, b0.nextId ≤ i ∧ i < b1.nextId ∨ b.nextId ≤ i ∧ i < b'.nextId) ∧ Frame H b b' := by
  obtain ⟨b2, hb2, rfl, rfl⟩ := captureInto_ok h
  have hblock : (C.check H b.fields).block d' start := (C.check_implies hf).block hd start hstart.block
  obtain ⟨hg, he, -⟩ := hm ⟨hblock, hstart.nodup, fun i hi => Nat.lt_of_lt_of_le (hstart.fresh i hi).2 hb⟩ _ _ hb2
  obtain ⟨ts, hts, hnew⟩ := he.block
  refine ⟨hg.block, hg.nodup, fun i hi => ?_, rfl, he.nextId, he.tasks, he.ret, he.fields, he.host⟩
  have hlt := hg.below i hi
  rw [hts, idsOf_append] at hi
  rcases mem_append.1 hi with hi | hi
  · exact .inl (hstart.fresh i hi)
  · exact .inr ⟨hnew i hi, hlt⟩

theorem Ctx.Good.pushFresh {inner : List StmtId} (hg : C.Good H b1) (he : Extends H b b1)
    (hi : freshId b1 = .ok i b2) (hp : Lowering.push s b2 = .ok u b')
    (hs : (C.check H b1.fields).stmt (C.env b1).here s) (hids : idsOf [s] = i :: inner)
    (hn : inner.Nodup)
    (hr : ∀ i ∈ inner, b.nextId ≤ i ∧ i < b1.nextId ∧ i ∉ idsOf b1.block.toList) :
    C.Good H b' ∧ Extends H b b' ∧ C.env b1 ≤ C.env b' := by
  obtain ⟨rfl, rfl⟩ := freshId_ok hi
  obtain rfl := push_ok hp
  have hframe : Frame H b1 { b1 with nextId := b1.nextId + 1 } := Frame.nextId_succ
  have hle : C.env b1 ≤ C.env { b1 with nextId := b1.nextId + 1, block := b1.block.push s } := by
    refine envOf_mono_here ?_
    rw [Array.toList_push, defsOf_append, ← append_assoc]
    exact subset_append_left _ _
  refine and_assoc.1 ⟨?_, hle⟩
  refine (hframe.good hg).push (he.trans hframe.extension) hs ?_ ?_ ?_ <;> rw [hids]
  · refine nodup_cons.2 ⟨fun hi => ?_, hn⟩
    exact Nat.lt_irrefl _ (hr _ hi).2.1
  · intro i hi
    rcases mem_cons.1 hi with rfl | hi
    · exact ⟨he.nextId, Nat.lt_succ_self _⟩
    · exact ⟨(hr i hi).1, Nat.lt_succ_of_lt (hr i hi).2.1⟩
  · intro i hi hmem
    rcases mem_cons.1 hi with rfl | hi
    · exact Nat.lt_irrefl _ (hg.below _ hmem)
    · exact (hr i hi).2.2 hmem

theorem Ctx.Good.pushBlocks {C₁ C₂ : Ctx} {xs ys : List Stmt} (hg : C.Good H b)
    (hxs : Closed H C₁ b b1 xs) (hys : Closed H C₂ b1 b2 ys) (hi : freshId b2 = .ok i b3)
    (hp : Lowering.push s b3 = .ok u b') (hs : (C.check H b2.fields).stmt (C.env b).here s)
    (hids : idsOf [s] = i :: (idsOf xs ++ idsOf ys)) : C.Good H b' ∧ Extends H b b' := by
  have hhere : (C.env b2).here = (C.env b).here := hys.here.trans hxs.here
  have hle := And.intro hxs.nextId hys.nextId
  have hnodup : (idsOf xs ++ idsOf ys).Nodup :=
    nodup_append.2 ⟨hxs.nodup, hys.nodup, fun i hi j hj hij => by grind [hxs.fresh i hi, hys.fresh j hj]⟩
  have hnew : ∀ i ∈ idsOf xs ++ idsOf ys,
      b.nextId ≤ i ∧ i < b2.nextId ∧ i ∉ idsOf b2.block.toList := by
    intro i hi
    have hi : b.nextId ≤ i ∧ i < b2.nextId := by
      rcases mem_append.1 hi with hi | hi
      · grind [hxs.fresh i hi]
      · grind [hys.fresh i hi]
    rw [hys.same, hxs.same]
    exact ⟨hi.1, hi.2, fun hmem => absurd (hg.below i hmem) (Nat.not_lt.2 hi.1)⟩
  obtain ⟨hg', he', -⟩ := (hys.good (hxs.good hg)).pushFresh
    (hxs.extension.trans hys.extension) hi hp (hhere ▸ hs) hids hnodup hnew
  exact ⟨hg', he'⟩

end ArrayKernel.Lowering
