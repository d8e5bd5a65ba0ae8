import ArrayKernel.Proofs.Lowering.Arithmetic

/-!
# Places

A member of a structure in a field is a settled place, since its offset is constant. So a
declaration gives a settled value to its name.
-/

namespace ArrayKernel.Lowering

open IR Surface List

variable {H : Host} {C : Ctx} {b : Builder} {e : Env} {f : FieldInfo} {is : List Operand}
  {offset v : Operand} {out slotTy t ty : Ty} {p : Place} {slot : StmtId} {hint name : String}
  {span : Span} {l : Lowered} {ms : Members} {s : Scalar} {k : AtomicKind}

/-! ## 1. Statements that go through a place -/

theorem PlaceOk.isPart {p : StmtId} (hp : PlaceOk H e (.global f is offset ty))
    (hm : (p, Def.op (.globalPtr f.id is offset)) ∈ e.here) (h : H.typed) :
    H.toResources.IsPart e.all f.id p ty :=
  ⟨is, offset, f, e.here_subset hm, hp.1.1, rfl, (hp.2.2.2.2 h).2⟩

theorem PlaceOk.slotPart (hp : PlaceOk H e (.local slot slotTy is ty)) (h : H.typed) :
    SlotPart e.all slot is ty :=
  ⟨fun x hx => (hp.2.1 x hx).hasTy h, slotTy, hp.1, hp.2.2.2 h⟩

section Statements

variable {slot p : StmtId} {slotTy ty : Ty} {is : List Operand} {v : Operand} {f : FieldInfo}
  {offset : Operand} (ret : Option Ty)

theorem OpOk.alloca (hhint : hint = hintOf name) (hty : H.flat → ty.isStruct = false) :
    OpOk H e ret (.alloca ty hint) where
  refs := ⟨nofun, nofun, nofun, nofun⟩
  sourced := ⟨name, hhint⟩
  flat := by simpa [Op.types] using hty
  typed _ := trivial
  ret := nofun
  tracked := trivial

theorem OpOk.localLoad (hp : PlaceOk H e (.local slot slotTy is ty)) :
    OpOk H e ret (.localLoad slot is ty) where
  refs := ⟨fun x hx => (hp.2.1 x hx).visible, nofun, nofun, by rintro s ⟨⟩; exact ⟨slotTy, hp.1⟩⟩
  sourced := trivial
  flat := by simpa [Op.types] using hp.2.2.1
  typed := hp.slotPart
  ret := nofun
  tracked := trivial

theorem OpOk.localStore (hp : PlaceOk H e (.local slot slotTy is ty)) (hv : Holds H e v ty) :
    OpOk H e ret (.localStore slot is v) where
  refs := by
    refine ⟨fun x hx => ?_, nofun, nofun, by rintro s ⟨⟩; exact ⟨slotTy, hp.1⟩⟩
    rcases mem_cons.1 hx with rfl | hx
    · exact hv.visible
    · exact (hp.2.1 x hx).visible
  sourced := trivial
  flat := by simp [Op.types]
  typed h := ⟨ty, hp.slotPart h, hv.hasTy h⟩
  ret := nofun
  tracked := trivial

theorem OpOk.globalPtr (hp : PlaceOk H e (.global f is offset ty)) :
    OpOk H e ret (.globalPtr f.id is offset) where
  refs := by
    refine ⟨?_, fun x hx => (hp.2.1 x hx).visible, nofun, nofun⟩
    simpa [Op.operands] using hp.2.2.1.visible
  sourced := ⟨f, hp.1.1, rfl⟩
  tracked := hp.1.2
  flat := by simp [Op.types]
  typed h := ⟨fun x hx => (hp.2.1 x hx).typed h, hp.2.2.1.hasTy h, f, hp.1.1, rfl, (hp.2.2.2.2 h).1⟩
  ret := nofun

theorem OpOk.globalLoad (hp : PlaceOk H e (.global f is offset ty))
    (hm : (p, Def.op (.globalPtr f.id is offset)) ∈ e.here) (hty : ty.isStruct = false) :
    OpOk H e ret (.globalLoad p ty) where
  refs := ⟨nofun, nofun, by rintro q ⟨⟩; exact ⟨_, _, _, hm⟩, nofun⟩
  sourced := trivial
  flat := by simpa [Op.types] using fun _ => hty
  typed h := ⟨f.id, hp.isPart hm h⟩
  ret := nofun
  tracked := trivial

theorem OpOk.globalStore (hp : PlaceOk H e (.global f is offset ty))
    (hm : (p, Def.op (.globalPtr f.id is offset)) ∈ e.here) (hv : Holds H e v ty) :
    OpOk H e ret (.globalStore p v) where
  refs := ⟨by simpa [Op.operands] using hv.visible, nofun, by rintro q ⟨⟩; exact ⟨_, _, _, hm⟩, nofun⟩
  sourced := trivial
  flat := by simp [Op.types]
  typed h := ⟨f.id, ty, hp.isPart hm h, hv.hasTy h⟩
  ret := nofun
  tracked := trivial

end Statements

/-! ## 2. Reading -/

theorem runs_load (hp : PlaceOk H (C.env b) p) :
    Runs H C b (load p span) fun e x => Holds H e x.1 x.2 ∧ x.2 = p.ty := by
  unfold load
  split
  · exact Runs.fail
  · rename_i hs
    rw [Bool.not_eq_true] at hs
    cases p with
    | «local» slot slotTy is ty =>
      exact (Runs.emitValue (OpOk.localLoad _ hp) rfl fun _ => hs).bind fun x b' _ hx => Runs.pure ⟨hx, rfl⟩
    | global f is offset ty =>
      refine (Runs.emit (OpOk.globalPtr _ hp)).bind fun ptr b' hb hptr => ?_
      have hload := OpOk.globalLoad C.ret (hp.mono hb) hptr hs
      exact (Runs.emitValue hload rfl fun _ => hs).bind fun x b'' _ hx => Runs.pure ⟨hx, rfl⟩

theorem runs_rvalue (hl : LoweredOk H (C.env b) l) :
    Runs H C b (rvalue l span) fun e x => Holds H e x.1 x.2 := by
  unfold rvalue
  split
  · exact .pure hl
  · exact (runs_load hl).imp fun _ _ _ hx => hx.1
  · exact .pure (.const _ _)
  · rename_i vs ty
    have hv : ValueOk H (C.env b).settled (.array vs ty) := hl
    have hop : OpOk H (C.env b) C.ret (.compose (vs.map .const) ty) := by
      refine .ofPlain ⟨rfl, rfl, rfl, nofun⟩ trivial trivial ?_ ?_ fun h => ?_
      · intro x hx
        obtain ⟨l, -, rfl⟩ := mem_map.1 hx
        trivial
      · simpa [Op.types] using hv.1
      · obtain ⟨hlen, ⟨s, hs, hall⟩, -⟩ := hv.2 h
        refine ⟨by rw [length_map, hlen], s, hs, fun p hp => ?_⟩
        obtain ⟨l, hm, rfl⟩ := mem_map.1 hp
        show l.ty = _
        rw [Literal.ty, hall l hm]
    exact (Runs.emitValue hop rfl hv.1).bind fun x b' _ hx => Runs.pure hx
  · exact .fail

theorem runs_intOperand (hl : LoweredOk H (C.env b) l) :
    Runs H C b (intOperand l span) fun e x => Holds H e x .i32 := by
  refine (runs_rvalue hl).bind fun x b' _ hx => ?_
  obtain ⟨o, ty⟩ := x
  simp only at hx ⊢
  split
  · exact .pure hx
  · exact runs_castScalar hx
  · split
    · exact .pure (.int _ _)
    · exact .fail
  · exact .fail

theorem runs_allocSlot (hl : LoweredOk H (C.env b) l) :
    Runs H C b (allocSlot l hint span) fun e p => PlaceOk H e.settled p := by
  refine (runs_rvalue hl).bind fun x b1 _ hx => ?_
  obtain ⟨o, ty⟩ := x
  refine (Runs.emit (OpOk.alloca C.ret rfl hx.flat)).bind fun slot b2 h2 hslot => ?_
  have hplace : PlaceOk H (C.env b2).settled (.local slot ty [] ty) :=
    ⟨⟨_, (C.env b2).here_subset hslot⟩, fun x hx => absurd hx not_mem_nil, hx.flat, fun _ => rfl⟩
  have hstore := OpOk.localStore C.ret (hplace.mono Env.settled_le) (hx.mono h2)
  exact (Runs.emit hstore).bind fun _ b3 h3 _ => Runs.pure (hplace.mono (Env.settled_mono h3))

/-! ## 3. Places inside a place -/

theorem intBinary_add_const {l m : Literal} :
    ∃ v, intBinary .add (.const l) (.const m) = pure (.const v) ∧ Fold.binary .add l m .i32 .i32 = .ok (some v) := by
  obtain ⟨v, hv⟩ := Fold.binary_int (.inl rfl) l m
  exact ⟨v, intBinary_const hv, hv⟩

theorem runs_memberPlace (hp : PlaceOk H (C.env b) p) : Runs H C b (memberPlace p name) fun e q =>
      PlaceOk H e.settled q ∧ ∃ start, p.ty.member name = .ok (start, q.ty) := by
  refine Runs.typed fun m hm => ?_
  obtain ⟨start, ty⟩ := m
  cases p with
  | «local» slot slotTy is t => exact Runs.fail
  | global f is offset t =>
    obtain ⟨ms, rfl, hfind⟩ := Ty.member_eq hm
    obtain ⟨hf, hi, ho, hc, ht⟩ := hp
    obtain ⟨l, rfl⟩ := hc rfl
    obtain ⟨v, heq, hv⟩ := intBinary_add_const
    have hstep : intBinary .add (.const l) (.int start) = pure (.const v) := heq
    simp only [hstep]
    refine Runs.pure ⟨⟨hf, hi, ?_, fun _ => ⟨v, rfl⟩, fun h => ⟨(ht h).1, ?_⟩⟩, start, hm⟩
    · have hconst := Holds.const (H := H) (C.env b).settled v
      rwa [Literal.ty, Fold.binary_scalar hv] at hconst
    · exact .member (ht h).2 hfind (.folded rfl rfl hv)

theorem runs_memberPlaces (hp : PlaceOk H (C.env b) p) : Runs H C b (memberPlaces p ms) fun e qs =>
      ∀ q ∈ qs, PlaceOk H e.settled q.2 ∧ ∃ start, p.ty.member q.1 = .ok (start, q.2.ty) := by
  induction ms using Members.rec (motive_1 := fun _ => True) generalizing b with
  | nil => exact .pure nofun
  | cons name ty rest _ ih =>
    unfold memberPlaces
    refine (runs_memberPlace hp).bind fun q b1 h1 hq => ?_
    refine (ih (hp.mono h1)).bind fun qs b2 h2 hqs => .pure fun r hr => ?_
    rcases mem_cons.1 hr with rfl | hr
    · exact ⟨hq.1.mono (Env.settled_mono h2), hq.2⟩
    · exact hqs r hr
  | _ => trivial

theorem runs_loadRecord? (hp : PlaceOk H (C.env b) p) :
    Runs H C b (loadRecord? p) fun e r => ∀ es, r = some es → EntriesOk H e es := by
  unfold loadRecord?
  split
  · refine (runs_memberPlaces hp).bind fun qs b1 h1 hqs => .pure ?_
    rintro es ⟨⟩
    refine .ofList fun x hx => ?_
    obtain ⟨q, hq, rfl⟩ := mem_map.1 hx
    exact (hqs q hq).1
  · exact Runs.pure fun _ h => absurd h.symm (Option.some_ne_none _)

theorem PlaceOk.narrow {sel : List Operand} (hp : PlaceOk H e (.local slot slotTy sel t))
    (hs : Selects t is out) (hi : ∀ x ∈ is, Holds H e x .i32) :
    PlaceOk H e (.local slot slotTy (sel ++ is) out) := by
  obtain ⟨hslot, hsel, -, ht⟩ := hp
  refine ⟨hslot, fun x hx => (mem_append.1 hx).elim (hsel x) (hi x), fun _ => ?_, fun h => ?_⟩
  · cases hs <;> rfl
  · rw [length_append, Ty.select_add, ht h]
    cases hs <;> rfl

theorem runs_offset {x : Operand} (hp : PlaceOk H (C.env b) (.global f is offset t))
    (hx : Holds H (C.env b) x .i32) (hout : out.isStruct = false)
    (hpart : ∀ {e : Env} {o : Operand}, C.env b ≤ e → PartAt e.all f.elem offset t →
      IntResult e.all .add offset x o → PartAt e.all f.elem o out) :
    Runs H C b (intBinary .add offset x >>= fun o => pure (Place.global f is o out)) fun e q => PlaceOk H e q := by
  refine (runs_intBinary (by decide) hp.2.2.1 hx).bind fun o b' hb ho => .pure ?_
  obtain ⟨hf, hi, -, -, ht⟩ := hp.mono hb
  refine ⟨hf, hi, ho.1, fun h => ?_, fun h => ⟨(ht h).1, ?_⟩⟩
  · rw [hout] at h
    cases h
  · exact hpart hb (ht h).2 (ho.2.mono (C.env b').here_subset)

theorem runs_subPlace (hp : PlaceOk H (C.env b) p) (hi : ∀ x ∈ is, Holds H (C.env b) x .i32) :
    Runs H C b (subPlace p is span) fun e q => PlaceOk H e q := by
  cases p with
  | «local» slot slotTy sel t =>
    simp only [subPlace, Place.ty]
    split
    · exact .pure (hp.narrow .component hi)
    · exact .pure (hp.narrow .row hi)
    · exact .pure (hp.narrow .entry hi)
    · exact .fail
  | global f elem offset t =>
    simp only [subPlace, Place.ty]
    split
    · simp only [pure_bind]
      exact runs_offset hp (hi _ (by simp)) rfl fun _ hpart hsum => .component hpart hsum
    · refine (runs_intBinary (by decide) (hi _ (by simp)) (Holds.int _ _)).bind fun m b1 h1 hm => ?_
      exact runs_offset (hp.mono h1) hm.1 rfl fun he hpart hsum =>
        .row hpart (hm.2.mono (List.Subset.trans (Env.here_subset _) he.1)) hsum
    · rw [bind_assoc]
      refine (runs_intBinary (by decide) (hi _ (by simp)) (Holds.int _ _)).bind fun m b1 h1 hm => ?_
      refine (runs_intBinary (by decide) hm.1 ((hi _ (by simp)).mono h1)).bind fun q b2 h2 hq => ?_
      exact runs_offset (hp.mono (Env.le_trans h1 h2)) hq.1 rfl fun he hpart hsum =>
        .entry hpart (hm.2.mono (List.Subset.trans (Env.here_subset _) (Env.le_trans h2 he).1))
          (hq.2.mono (List.Subset.trans (Env.here_subset _) he.1)) hsum
    · exact .fail

/-! ## 4. Writing -/

theorem runs_argLoad {index : Nat} (h : ValueOk H e (.arg index ty)) :
    Runs H C b (emitValue (.argLoad index ty)) fun e x => Holds H e x ty := by
  obtain ⟨hty, harg⟩ := h
  exact .emitValue (.ofPlain ⟨rfl, rfl, rfl, nofun⟩ trivial harg nofun
    (by simpa [Op.types] using hty) fun _ => trivial) rfl hty

theorem runs_ofValue {v : Value} (hv : ValueOk H (C.env b) v) :
    Runs H C b (ofValue v) fun e l => LoweredOk H e l := by
  cases v with
  | arg index ty => exact (runs_argLoad hv).bind fun x b' _ hx => .pure hx
  | _ => exact .pure hv

theorem runs_ofValue_settled {v : Value} (hv : ValueOk H (C.env b).settled v) :
    Runs H C b (ofValue v) fun e l => MemberOk H e l := by
  cases v with
  | arg index ty => exact (runs_argLoad hv).bind fun x b' _ hx => .pure hx
  | bound o ty => exact Runs.pure (Holds.mono hv Env.settled_le)
  | _ => exact .pure hv

theorem runs_structEntries (hl : LoweredOk H (C.env b) l) :
    Runs H C b (structEntries p l span) fun e es => EntriesOk H e es := by
  unfold structEntries
  split
  · exact Runs.pure hl
  · rename_i r
    have hr : RecordOk H (C.env b).settled r := hl
    refine (Runs.mapAll (R := fun e (x : String × Lowered) => MemberOk H e x.2) (fun he h => MemberOk.mono he _ h)
      fun x hx b' hb => ?_).bind fun ps b' _ hps => Runs.pure (EntriesOk.ofList hps.2)
    obtain ⟨k, v⟩ := x
    have hv := ValueOk.mono (Env.settled_mono hb) v (hr.toList _ hx)
    exact (runs_ofValue_settled hv).bind fun m b'' _ hm => Runs.pure hm
  · split
    · refine (runs_loadRecord? hl).bind fun r b' _ hr => Runs.pure ?_
      cases r with
      | none => trivial
      | some es => exact hr es rfl
    · exact Runs.fail
  · exact Runs.fail

/-- What is found under a name in a table made from members is made from the first member of that
name. -/
theorem lookup_members {α : Type} {g : Ty → α} {a : α}
    (h : (ms.toList.map fun p => (p.1, g p.2)).lookup name = some a) :
    ∃ p ∈ ms.toList, g p.2 = a ∧ ∃ start, ms.find? name = some (start, p.2) := by
  induction ms using Members.rec (motive_1 := fun _ => True) with
  | nil => cases h
  | cons k ty rest _ ih =>
    rw [Members.toList, map_cons, lookup_cons] at h
    unfold Members.find?
    by_cases hk : k = name
    · subst hk
      simp only [beq_self_eq_true, Option.some.injEq] at h
      exact ⟨(k, ty), mem_cons_self .., h, 0, if_pos rfl⟩
    · have hne : (name == k) = false := by simpa using Ne.symm hk
      rw [hne] at h
      obtain ⟨p, hp, ha, start, hfind⟩ := ih h
      exact ⟨p, mem_cons_of_mem _ hp, ha, ty.size + start, by rw [if_neg hk, hfind]; rfl⟩
  | _ => trivial

theorem member_ty_eq {start start' : Nat} {u : Ty} (h : (Ty.struct ms).member name = .ok (start, t))
    (h' : ms.find? name = some (start', u)) : t = u := by
  obtain ⟨_, ⟨rfl⟩, hfind⟩ := Ty.member_eq h
  rw [h'] at hfind
  cases hfind
  rfl

theorem memberStorers_eq : memberStorers ms = ms.toList.map fun p => (p.1, storer p.2) := by
  fun_induction Members.toList ms with
  | case1 => rfl
  | case2 k ty rest ih => rw [memberStorers, ih, map_cons]

theorem memberCopiers_eq : memberCopiers ms = ms.toList.map fun p => (p.1, copier p.2) := by
  fun_induction Members.toList ms with
  | case1 => rfl
  | case2 k ty rest ih => rw [memberCopiers, ih, map_cons]

def StorerOk (H : Host) (ty : Ty) (assign : Storer) : Prop :=
  ∀ (C : Ctx) (b : Builder) (p : Place) (l : Lowered) (span : Span),
    PlaceOk H (C.env b) p → p.ty = ty → LoweredOk H (C.env b) l → Runs H C b (assign p l span) fun _ _ => True

theorem runs_assign {o : Operand} (hp : PlaceOk H (C.env b) p) (ho : Holds H (C.env b) o p.ty) :
    Runs H C b
      (match p with
        | .local slot _ indices _ => discard <| emit (.localStore slot indices o)
        | .global f indices offset _ => do
          let ptr ← globalPtr f indices offset
          discard <| emit (.globalStore ptr o)) fun _ _ => True := by
  cases p with
  | «local» slot slotTy is ty =>
    exact Runs.discard (Runs.emit (OpOk.localStore _ hp ho))
  | global f is offset ty =>
    refine (Runs.emit (OpOk.globalPtr _ hp)).bind fun ptr b' hb hptr => ?_
    have hop := OpOk.globalStore C.ret (hp.mono hb) hptr (ho.mono hb)
    exact Runs.discard (Runs.emit hop)

theorem storerOk_plain : StorerOk H ty (fun place value span => do
      let (o, source) ← rvalue value span
      let o ← coerce o source ty span
      match place with
      | .local slot _ indices _ => discard <| emit (.localStore slot indices o)
      | .global f indices offset _ => do
        let ptr ← globalPtr f indices offset
        discard <| emit (.globalStore ptr o)) := by
  intro C b p l span hp hty hl
  refine (runs_rvalue hl).bind fun x b1 h1 hx => ?_
  refine (runs_coerce hx).bind fun o b2 h2 ho => ?_
  exact runs_assign (hp.mono (Env.le_trans h1 h2)) (hty ▸ ho)

mutual

theorem storerOk : (ty : Ty) → StorerOk H ty (storer ty)
  | .scalar s => by
    unfold storer
    exact storerOk_plain
  | .vector s n => by
    exact storerOk_plain
  | .matrix r c => by
    exact storerOk_plain
  | .struct ms => by
    intro C b p l span hp hty hl
    refine (runs_structEntries hl).bind fun es b1 h1 hes => ?_
    refine .forM fun name _ b2 h2 => ?_
    split
    · rename_i v assign hv hassign
      rw [memberStorers_eq] at hassign
      obtain ⟨m, hm, rfl, start, hfind⟩ := lookup_members hassign
      refine (runs_memberPlace (hp.mono (Env.le_trans h1 h2))).bind fun q b3 h3 hq => ?_
      obtain ⟨hq, start', hmember⟩ := hq
      rw [hty] at hmember
      exact memberStorersOk ms m hm _ _ _ _ _ (hq.mono Env.settled_le) (member_ty_eq hmember hfind)
        ((hes.get? hv).loweredOk.mono (Env.le_trans h2 h3))
    · exact .fail

theorem memberStorersOk : (ms : Members) → ∀ p ∈ ms.toList, StorerOk H p.2 (storer p.2)
  | .nil, _, hp => by cases hp
  | .cons k ty rest, p, hp => by
    rcases mem_cons.1 hp with rfl | hp
    · exact storerOk ty
    · exact memberStorersOk rest p hp

end

theorem runs_store (hp : PlaceOk H (C.env b) p)
    (hl : LoweredOk H (C.env b) l) : Runs H C b (store p l span) fun _ _ => True :=
  storerOk p.ty _ _ _ _ _ hp rfl hl

theorem OpOk.atomicLocal (hp : PlaceOk H e (.local slot slotTy is (.scalar s)))
    (hv : Holds H e v (.scalar s)) {ret : Option Ty} :
    OpOk H e ret (.atomic (.local slot is) k v (.scalar s)) where
  refs := by
    refine ⟨fun x hx => ?_, nofun, nofun, by rintro s ⟨⟩; exact ⟨slotTy, hp.1⟩⟩
    rcases mem_cons.1 hx with rfl | hx
    · exact hv.visible
    · exact (hp.2.1 x hx).visible
  sourced := trivial
  flat := by simp [Op.types, Ty.isStruct]
  typed h := ⟨rfl, hv.hasTy h, hp.slotPart h⟩
  ret := nofun
  tracked := trivial

theorem OpOk.atomicGlobal {p : StmtId} (hp : PlaceOk H e (.global f is offset (.scalar s)))
    (hm : (p, Def.op (.globalPtr f.id is offset)) ∈ e.here) (hv : Holds H e v (.scalar s))
    (ret : Option Ty) : OpOk H e ret (.atomic (.global f.id p) k v (.scalar s)) where
  refs := ⟨by simpa [Op.operands, AtomicTarget.indices] using hv.visible, nofun,
    by rintro q ⟨⟩; exact ⟨_, _, _, hm⟩, nofun⟩
  sourced := ⟨f, hp.1.1, rfl⟩
  tracked := ⟨hp.1.2, is, offset, hm⟩
  flat := by simp [Op.types, Ty.isStruct]
  typed h := ⟨rfl, hv.hasTy h, hp.isPart hm h⟩
  ret := nofun

theorem runs_atomic {kind : AtomicKind} (hp : PlaceOk H (C.env b) p)
    (hl : LoweredOk H (C.env b) l) :
    Runs H C b (atomic p kind l span) fun e x => Holds H e x.1 x.2 := by
  unfold atomic
  split
  · rename_i s hs
    split
    · exact Runs.fail
    · refine (runs_rvalue hl).bind fun x b1 h1 hx => ?_
      refine (runs_coerce hx).bind fun o b2 h2 ho => ?_
      have hp := hp.mono (Env.le_trans h1 h2)
      cases p with
      | «local» slot slotTy is ty =>
        obtain rfl : ty = .scalar s := hs
        simp only [pure_bind]
        exact (Runs.emitValue (OpOk.atomicLocal hp ho) rfl fun _ => rfl).bind fun x b3 _ hx => Runs.pure hx
      | global f is offset ty =>
        obtain rfl : ty = .scalar s := hs
        refine (Runs.emit (OpOk.globalPtr _ hp)).bind fun ptr b3 h3 hptr => ?_
        simp only [pure_bind]
        have hop := OpOk.atomicGlobal (k := kind) (hp.mono h3) hptr (ho.mono h3) C.ret
        exact (Runs.emitValue hop rfl fun _ => rfl).bind fun x b4 _ hx => Runs.pure hx
  · exact Runs.fail

/-! ## 5. Names -/

def CopierOk (H : Host) (ty : Ty) (copy : Copier) : Prop :=
  ∀ (C : Ctx) (b : Builder) (p : Place) (name : String) (span : Span),
    PlaceOk H (C.env b) p → p.ty = ty → Runs H C b (copy p name span) fun e v => ValueOk H e.settled v

theorem copierOk_plain : CopierOk H ty (fun place name span => do return .place (← allocSlot (.place place) name span)) := by
  intro C b p name span hp _
  exact (runs_allocSlot (l := .place p) hp).bind fun q b' _ hq => .pure hq

mutual

theorem copierOk : (ty : Ty) → CopierOk H ty (copier ty)
  | .scalar s => by
    unfold copier
    exact copierOk_plain
  | .vector s n => by
    exact copierOk_plain
  | .matrix r c => by
    exact copierOk_plain
  | .struct ms => by
    intro C b p name span hp hty
    refine (runs_memberPlaces hp).bind fun qs b1 h1 hqs => ?_
    refine (Runs.mapAll (R := fun e (x : String × Value) => ValueOk H e.settled x.2)
      (fun he h => ValueOk.mono (Env.settled_mono he) _ h) fun q hq b2 h2 => ?_).bind
      fun vs b3 _ hvs => Runs.pure (RecordOk.ofList hvs.2)
    obtain ⟨k, q⟩ := q
    obtain ⟨hq, start', hmember⟩ := hqs _ hq
    simp only
    split
    · rename_i copy hcopy
      rw [memberCopiers_eq] at hcopy
      obtain ⟨m, hm, rfl, start, hfind⟩ := lookup_members hcopy
      rw [hty] at hmember
      have hq2 := hq.mono (Env.le_trans Env.settled_le h2)
      exact (memberCopiersOk ms m hm _ _ q _ _ hq2 (member_ty_eq hmember hfind)).bind fun v b3 _ hv => Runs.pure hv
    · exact Runs.fail

theorem memberCopiersOk : (ms : Members) → ∀ p ∈ ms.toList, CopierOk H p.2 (copier p.2)
  | .nil, _, hp => by cases hp
  | .cons k ty rest, p, hp => by
    rcases mem_cons.1 hp with rfl | hp
    · exact copierOk ty
    · exact memberCopiersOk rest p hp

end

theorem runs_slotValue (hl : LoweredOk H (C.env b) l) :
    Runs H C b (do return Value.place (← allocSlot l name span)) fun e v => ValueOk H e.settled v :=
  (runs_allocSlot hl).bind fun _ _ _ hp => .pure hp

mutual

theorem runs_bindDecl {kind : DeclKind} {name : String} {span : Span} {b : Builder} :
    (l : Lowered) → LoweredOk H (C.env b) l →
      Runs H C b (bindDecl kind name span l) fun e v => ValueOk H e.settled v
  | .static v, hl => by
    unfold bindDecl
    split
    · exact .pure hl
    · exact runs_slotValue hl
  | .record es, hl => by
    exact (runs_bindMembers es hl).bind fun r b' _ hr => .pure hr
  | .place p, hl => by
    exact copierOk p.ty _ _ _ _ _ hl rfl
  | .void, _ => by
    exact .fail
  | .value o ty, hl => by
    exact runs_slotValue hl

theorem runs_bindMembers {name : String} {span : Span} {b : Builder} :
    (es : Entries) → EntriesOk H (C.env b) es →
      Runs H C b (bindMembers name span es) fun e r => RecordOk H e.settled r
  | .nil, _ => .pure trivial
  | .cons k l rest, hes => by
    unfold bindMembers
    refine (runs_bindDecl l hes.1.loweredOk).bind fun v b1 h1 hv => ?_
    refine (runs_bindMembers rest (.mono h1 _ hes.2)).bind fun r b2 h2 hr => .pure ?_
    exact ⟨ValueOk.mono (Env.settled_mono h2) v hv, hr⟩

end

mutual

theorem runs_bindArg_settled {name : String} {span : Span} {b : Builder} :
    (l : Lowered) → MemberOk H (C.env b) l → Runs H C b (bindArg name span l) fun e v => ValueOk H e.settled v
  | .static v, hl => by
    unfold bindArg
    exact .pure hl
  | .record es, hl => by
    exact (runs_bindArgMembers es hl).bind fun r b' _ hr => .pure hr
  | .place p, hl => by
    exact .pure hl
  | .void, _ => by
    exact .fail
  | .value o ty, hl => by
    exact runs_slotValue hl

theorem runs_bindArgMembers {span : Span} {b : Builder} :
    (es : Entries) → EntriesOk H (C.env b) es → Runs H C b (bindArgMembers span es) fun e r => RecordOk H e.settled r
  | .nil, _ => .pure trivial
  | .cons k l rest, hes => by
    unfold bindArgMembers
    refine (runs_bindArg_settled l hes.1).bind fun v b1 h1 hv => ?_
    refine (runs_bindArgMembers rest (.mono h1 _ hes.2)).bind fun r b2 h2 hr => .pure ?_
    exact ⟨ValueOk.mono (Env.settled_mono h2) v hv, hr⟩

end

theorem runs_bindArg (hl : LoweredOk H (C.env b) l) :
    Runs H C b (bindArg name span l) fun e v => ValueOk H e v := by
  cases l with
  | place p =>
    exact .pure hl
  | _ => exact (runs_bindArg_settled _ hl).imp fun _ _ _ hv => hv.of_settled

end ArrayKernel.Lowering
