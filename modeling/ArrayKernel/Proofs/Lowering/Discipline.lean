import ArrayKernel.Proofs.IR.Typing
import ArrayKernel.Proofs.Lowering.Slots

/-!
# What lowering keeps

An environment has the definitions that are visible, those of the outermost level, which a later
task may refer to, and the fields that have been noted. A value is *settled* when it refers to
nothing that is only visible here. Members of records are always settled; that is what allows a
record to be used in a later task.
-/

namespace ArrayKernel.Lowering

open IR Surface List

variable {ret : Option Ty} {fields fields' : List FieldInfo} {here here' past past' : Defs}
  {v : Value} {r : Record} {name : String} {s : Scope} {l : Lowered}

/-! ## 1. Environments -/

/-- What is known about the values that the host gives. A kernel may refer to its fields and
textures only. -/
structure Host extends Resources where
  flat : Prop
  /-- Every constant vector and matrix of the host has as many components as its type says, and of
  its type. -/
  typed : Prop
  /-- The kernel has an argument of this type that starts at this word. -/
  arg : Nat → Ty → Prop := fun _ _ => True

structure Env where
  /-- All definitions of the outermost level, and those that are visible. -/
  all : Defs
  here : Defs
  here_subset : here ⊆ all
  fields : List FieldInfo

namespace Env

variable {e e' : Env}

structure Le (e e' : Env) : Prop where
  all : e.all ⊆ e'.all
  here : e.here ⊆ e'.here
  fields : e.fields ⊆ e'.fields

instance : LE Env := ⟨Le⟩

theorem le_refl (e : Env) : e ≤ e := ⟨.refl _, .refl _, .refl _⟩

theorem le_trans {e1 e2 e3 : Env} (h : e1 ≤ e2) (h' : e2 ≤ e3) : e1 ≤ e3 :=
  ⟨List.Subset.trans h.all h'.all, List.Subset.trans h.here h'.here, List.Subset.trans h.fields h'.fields⟩

def settled (e : Env) : Env := ⟨e.all, [], nil_subset _, e.fields⟩

def anywhere (e : Env) : Env := ⟨e.all, e.all, List.Subset.refl _, e.fields⟩

theorem settled_le : e.settled ≤ e := ⟨.refl _, nil_subset _, .refl _⟩

theorem settled_mono (h : e ≤ e') : e.settled ≤ e'.settled := ⟨h.all, .refl _, h.fields⟩

theorem anywhere_mono (h : e ≤ e') : e.anywhere ≤ e'.anywhere := ⟨h.all, h.all, h.fields⟩

theorem le_anywhere : e ≤ e.anywhere := ⟨.refl _, e.here_subset, .refl _⟩

def empty : Env := ⟨[], [], List.Subset.refl _, []⟩

theorem empty_le (e : Env) : empty ≤ e := ⟨nil_subset _, nil_subset _, nil_subset _⟩

def Lists (e : Env) (id : Nat) : Prop := ∃ f ∈ e.fields, f.id = id

theorem Lists.mono {id : Nat} (h : e.Lists id) (he : e ≤ e') : e'.Lists id := by
  obtain ⟨f, hf, hid⟩ := h
  exact ⟨f, he.fields hf, hid⟩

end Env

variable {H : Host} {e e' : Env}

/-! ## 2. Operands and statements -/

structure Holds (H : Host) (e : Env) (o : Operand) (ty : Ty) : Prop where
  visible : Visible e.here o
  flat : H.flat → ty.isStruct = false
  typed : H.typed → HasTy e.here o ty

namespace Holds

variable {o : Operand} {ty : Ty}

theorem mono (h : Holds H e o ty) (he : e ≤ e') : Holds H e' o ty :=
  ⟨h.visible.mono he.2, h.flat, fun ht => (h.typed ht).mono he.2⟩

theorem const (e : Env) (l : Literal) : Holds H e (.const l) l.ty :=
  ⟨trivial, fun _ => rfl, fun _ => rfl⟩

theorem int (e : Env) (v : Int) : Holds H e (.int v) .i32 := const e _

theorem anywhere (h : Holds H e o ty) : Holds H e.anywhere o ty := h.mono e.le_anywhere

theorem stmt {i : StmtId} {x : Def} (h : (i, x) ∈ e.here) (hty : x.ty? = some ty)
    (hflat : H.flat → ty.isStruct = false) : Holds H e (.stmt i) ty :=
  ⟨⟨x, h, by rw [hty]; rfl⟩, hflat, fun _ => ⟨x, h, hty⟩⟩

theorem const_ty {l : Literal} (h : Holds H e (.const l) ty) (ht : H.typed) : l.ty = ty :=
  h.typed ht

end Holds

/-- The resources that the statement refers to are those of the host, hints are made from names, and
operations are those of the table. -/
def Sourced (r : Resources) : Op → Prop
  | .alloca _ hint => ∃ name, hint = hintOf name
  | .globalPtr field _ _ | .atomic (.global field _) _ _ _ => ∃ f, r.field f ∧ f.id = field
  | .texture id _ _ _ _ => ∃ t, r.texture t ∧ t.id = id
  | .call i _ _ _ => i ∈ Intrinsic.table
  | _ => True

/-- Arguments are read where they are, fields are noted before they are used, and the address of an
update is in the field that is named with it. -/
def Tracked (H : Host) (e : Env) : Op → Prop
  | .globalPtr field _ _ => e.Lists field
  | .atomic (.global field p) _ _ _ => e.Lists field ∧ ∃ is offset, (p, Def.op (.globalPtr field is offset)) ∈ e.here
  | .argLoad index ty => H.arg index ty
  | _ => True

theorem Tracked.mono {o : Op} (h : Tracked H e o) (he : e ≤ e') : Tracked H e' o := by
  unfold Tracked at h ⊢
  split at h
  · exact .mono h he
  · obtain ⟨hf, is, offset, hp⟩ := h
    exact ⟨hf.mono he, is, offset, he.here hp⟩
  · exact h
  · trivial

/-- What every emitted statement meets. The result of the kernel has the type `ret`. -/
structure OpOk (H : Host) (e : Env) (ret : Option Ty) (o : Op) : Prop where
  refs : o.Scoped e.here e.all e.all
  sourced : Sourced H.toResources o
  flat : H.flat → ∀ ty ∈ o.types, ty.isStruct = false
  typed : H.typed → o.Typed H.toResources e.all
  ret : ∀ v ty, o = .ret v ty → ret = some ty
  tracked : Tracked H e o

theorem OpOk.mono {o : Op} (h : OpOk H e ret o) (he : e ≤ e') : OpOk H e' ret o where
  refs := h.refs.mono he.2 he.1 he.1
  sourced := h.sourced
  flat := h.flat
  typed ht := (h.typed ht).mono he.1
  ret := h.ret
  tracked := h.tracked.mono he

def envOf (fields : List FieldInfo) (past here : Defs) : Env :=
  ⟨past ++ here, here, subset_append_right _ _, fields⟩

theorem envOf_mono (hf : fields ⊆ fields')
    (hp : past ⊆ past') (hh : here ⊆ here') : envOf fields past here ≤ envOf fields' past' here' :=
  ⟨Defs.append_mono hp hh, hh, hf⟩

theorem envOf_mono_here (hh : here ⊆ here') :
    envOf fields past here ≤ envOf fields past here' :=
  envOf_mono (.refl _) (.refl _) hh

theorem envOf_mono_fields (hf : fields ⊆ fields') (past here : Defs) :
    envOf fields past here ≤ envOf fields' past here :=
  envOf_mono hf (.refl _) (.refl _)

/-- The check that lowered code passes, once the given fields have been noted. -/
def discipline (H : Host) (fields : List FieldInfo) (past : Defs) (ret : Option Ty) : Check where
  op here o := OpOk H (envOf fields past here) ret o
  loop here first last hint :=
    Holds H (envOf fields past here) first .i32 ∧ Holds H (envOf fields past here) last .i32
      ∧ ∃ name, hint = hintOf name
  cond here o := ∃ s, Holds H (envOf fields past here) o (.scalar s)

theorem discipline_implies {ret' : Option Ty}
    (hf : fields ⊆ fields') (hp : past ⊆ past') (hr : ∀ ty, ret = some ty → ret' = some ty) :
    (discipline H fields past ret).Implies (discipline H fields' past' ret') where
  op hd ho :=
    have h := ho.mono (envOf_mono hf hp hd)
    { h with ret := fun v ty hv => hr ty (h.ret v ty hv) }
  loop hd hl := ⟨hl.1.mono (envOf_mono hf hp hd), hl.2.1.mono (envOf_mono hf hp hd), hl.2.2⟩
  cond hd hc := by
    obtain ⟨s, hs⟩ := hc
    exact ⟨s, hs.mono (envOf_mono hf hp hd)⟩

/-! ## 3. Places -/

/-- The place can be read and assigned to. The element of a field may have been selected in an
earlier task; a place of a structure type has a constant offset. -/
def PlaceOk (H : Host) (e : Env) : Place → Prop
  | .local slot slotTy is ty =>
    IsSlot e.all slot slotTy ∧ (∀ x ∈ is, Holds H e x .i32) ∧ (H.flat → ty.isStruct = false)
      ∧ (H.typed → slotTy.select is.length = some ty)
  | .global f is offset ty =>
    (H.field f ∧ e.Lists f.id) ∧ (∀ x ∈ is, Holds H e.anywhere x .i32) ∧ Holds H e offset .i32
      ∧ (ty.isStruct → ∃ l, offset = .const l)
      ∧ (H.typed → is.length = f.shape.length ∧ PartAt e.all f.elem offset ty)

theorem PlaceOk.mono {p : Place} (h : PlaceOk H e p) (he : e ≤ e') : PlaceOk H e' p := by
  cases p with
  | «local» slot slotTy is ty =>
    obtain ⟨hs, hi, hf, ht⟩ := h
    exact ⟨hs.mono he.1, fun x hx => (hi x hx).mono he, hf, ht⟩
  | global f is offset ty =>
    obtain ⟨hf, hi, ho, hc, ht⟩ := h
    refine ⟨⟨hf.1, hf.2.mono he⟩, fun x hx => (hi x hx).mono (Env.anywhere_mono he), ho.mono he, hc, fun t => ?_⟩
    exact ⟨(ht t).1, (ht t).2.mono he.1⟩

/-! ## 4. Values of names -/

/-- The components of a constant are as many and of the type that its own type says. -/
structure ArrayOk (vs : List Literal) (ty : Ty) : Prop where
  length : vs.length = ty.size
  scalar : ∃ s, ty.scalar? = some s ∧ ∀ l ∈ vs, l.scalar = s
  shaped : ty.isScalar = false

mutual

def ValueOk (H : Host) : Env → Value → Prop
  | _, .number _ | _, .function _ => True
  | _, .array vs ty => (H.flat → ty.isStruct = false) ∧ (H.typed → ArrayOk vs ty)
  | _, .field f => H.field f
  | _, .texture t => H.texture t
  | e, .record r => RecordOk H e.settled r
  | e, .place p => PlaceOk H e p
  | e, .bound o ty => Holds H e o ty
  | _, .arg index ty => (H.flat → ty.isStruct = false) ∧ H.arg index ty

def RecordOk (H : Host) : Env → Record → Prop
  | _, .nil => True
  | e, .cons _ v rest => ValueOk H e v ∧ RecordOk H e rest

end

mutual

theorem ValueOk.mono : {e e' : Env} → e ≤ e' → (v : Value) → ValueOk H e v → ValueOk H e' v
  | _, _, _, .number _, _ | _, _, _, .function _, _ => trivial
  | _, _, _, .array _ _, h | _, _, _, .field _, h | _, _, _, .texture _, h => h
  | _, _, he, .record r, h => RecordOk.mono (Env.settled_mono he) r h
  | _, _, he, .place _, h => PlaceOk.mono h he
  | _, _, he, .bound _ _, h => Holds.mono h he
  | _, _, _, .arg _ _, h => h

theorem RecordOk.mono : {e e' : Env} → e ≤ e' → (r : Record) → RecordOk H e r → RecordOk H e' r
  | _, _, _, .nil, _ => trivial
  | _, _, he, .cons _ v rest, h => ⟨.mono he v h.1, .mono he rest h.2⟩

end

theorem ValueOk.of_settled (h : ValueOk H e.settled v) : ValueOk H e v :=
  ValueOk.mono e.settled_le v h

theorem RecordOk.get? (h : RecordOk H e r) (hv : r.get? name = some v) : ValueOk H e v := by
  induction r using Record.rec (motive_1 := fun _ => True) with
  | nil => simp [Record.get?] at hv
  | cons k w rest _ ih =>
    unfold Record.get? at hv
    split at hv
    · obtain rfl := Option.some.inj hv
      exact h.1
    · exact ih h.2 hv
  | _ => trivial

theorem RecordOk.ofList {ps : List (String × Value)} (h : ∀ p ∈ ps, ValueOk H e p.2) :
    RecordOk H e (Record.ofList ps) := by
  induction ps with
  | nil => trivial
  | cons p ps ih =>
    exact ⟨h p (mem_cons_self ..), ih fun q hq => h q (mem_cons_of_mem _ hq)⟩

theorem RecordOk.toList (h : RecordOk H e r) : ∀ p ∈ r.toList, ValueOk H e p.2 := by
  induction r using Record.rec (motive_1 := fun _ => True) with
  | nil => simp [Record.toList]
  | cons k v rest _ ih =>
    intro p hp
    rcases mem_cons.1 hp with rfl | hp
    · exact h.1
    · exact ih h.2 p hp
  | _ => trivial

/-! ## 5. Scopes -/

abbrev ScopeOk (H : Host) (e : Env) : Scope → Prop := ScopeAll (ValueOk H e)

namespace ScopeOk

theorem mono (h : ScopeOk H e s) (he : e ≤ e') : ScopeOk H e' s :=
  ⟨fun p hp => .mono he _ (h.table p hp), fun v hv => .mono he v (h.receiver v hv)⟩

theorem resolve? (h : ScopeOk H e s) {path : List String} (hv : s.resolve? path = some v) :
    ValueOk H e v :=
  ScopeAll.resolve? h (fun hr hu => (RecordOk.get? hr hu).of_settled) hv

end ScopeOk

/-- The second scope has the receiver of the first, and its names are those of the first and others
whose values are supported. -/
structure ScopeAdds (H : Host) (e : Env) (s s' : Scope) : Prop where
  table : ∀ p ∈ s'.table, p ∈ s.table ∨ ValueOk H e p.2
  receiver : s'.receiver = s.receiver

namespace ScopeAdds

theorem refl (e : Env) (s : Scope) : ScopeAdds H e s s := ⟨fun _ hp => .inl hp, rfl⟩

theorem insert (hv : ValueOk H e v) (name : String) : ScopeAdds H e s (s.insert name v) where
  table p hp := by
    rcases Scope.mem_insertInto hp with rfl | hp
    · exact .inr hv
    · exact .inl hp
  receiver := rfl

theorem trans {s1 s2 s3 : Scope} (h : ScopeAdds H e s1 s2) (h' : ScopeAdds H e' s2 s3)
    (he : e ≤ e') : ScopeAdds H e' s1 s3 where
  table p hp := by
    rcases h'.table p hp with hp | hp
    · exact (h.table p hp).imp_right (.mono he _)
    · exact .inr hp
  receiver := h'.receiver.trans h.receiver

theorem scopeOk {s' : Scope} (h : ScopeAdds H e s s') (hs : ScopeOk H e' s) (he : e ≤ e') :
    ScopeOk H e' s' where
  table p hp := (h.table p hp).elim (hs.table p) (.mono he _)
  receiver v hv := hs.receiver v (h.receiver ▸ hv)

end ScopeAdds

/-! ## 6. Lowered expressions -/

mutual

def MemberOk (H : Host) (e : Env) : Lowered → Prop
  | .value o ty => Holds H e o ty
  | .place p => PlaceOk H e.settled p
  | .static v => ValueOk H e.settled v
  | .record es => EntriesOk H e es
  | .void => True

def EntriesOk (H : Host) (e : Env) : Entries → Prop
  | .nil => True
  | .cons _ l rest => MemberOk H e l ∧ EntriesOk H e rest

end

def LoweredOk (H : Host) (e : Env) : Lowered → Prop
  | .place p => PlaceOk H e p
  | l => MemberOk H e l

mutual

theorem MemberOk.mono (he : e ≤ e') : (l : Lowered) → MemberOk H e l → MemberOk H e' l
  | .value _ _, h => Holds.mono h he
  | .place _, h => PlaceOk.mono h (Env.settled_mono he)
  | .static v, h => ValueOk.mono (Env.settled_mono he) v h
  | .record es, h => EntriesOk.mono he es h
  | .void, _ => trivial

theorem EntriesOk.mono (he : e ≤ e') : (es : Entries) → EntriesOk H e es → EntriesOk H e' es
  | .nil, _ => trivial
  | .cons _ l rest, h => ⟨.mono he l h.1, .mono he rest h.2⟩

end

theorem MemberOk.loweredOk (h : MemberOk H e l) : LoweredOk H e l := by
  cases l with
  | place p => exact .mono h e.settled_le
  | _ => exact h

theorem LoweredOk.mono (h : LoweredOk H e l) (he : e ≤ e') : LoweredOk H e' l := by
  cases l with
  | place p => exact .mono h he
  | _ => exact .mono he _ h

theorem EntriesOk.get? {es : Entries} (h : EntriesOk H e es) (hl : es.get? name = some l) :
    MemberOk H e l := by
  induction es using Entries.rec (motive_1 := fun _ => True) with
  | nil => simp [Entries.get?] at hl
  | cons k v rest _ ih =>
    unfold Entries.get? at hl
    split at hl
    · obtain rfl := Option.some.inj hl
      exact h.1
    · exact ih h.2 hl
  | _ => trivial

theorem EntriesOk.ofList {ps : List (String × Lowered)} (h : ∀ p ∈ ps, MemberOk H e p.2) :
    EntriesOk H e (Entries.ofList ps) := by
  induction ps with
  | nil => trivial
  | cons p ps ih =>
    exact ⟨h p (mem_cons_self ..), ih fun q hq => h q (mem_cons_of_mem _ hq)⟩

theorem LoweredOk.static? (h : LoweredOk H e l) (hv : l.static? = some v) :
    ValueOk H e.settled v := by
  unfold Lowered.static? at hv
  split at hv
  · obtain rfl := Option.some.inj hv
    exact h
  · obtain rfl := Option.some.inj hv
    trivial
  · cases hv

end ArrayKernel.Lowering
