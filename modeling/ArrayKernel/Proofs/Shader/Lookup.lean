import ArrayKernel.Proofs.Shader.Additions

/-!
# What writing a statement finds

`Found` says that a definition has been entered and that its name can be used. A statement whose
references are found enters its own definition and binds just the resources that it mentions.
-/

namespace ArrayKernel.Shader

open IR Text

variable {t : Target} {e e' e1 : Emitter} {id p s : StmtId} {o : Op} {ty : Ty} {kind : ResourceKind}
  {a : Address}

/-! ## 1. Findings -/

/-- An operand is a constant, or the name of its value can be used. -/
def FindsValue (e : Emitter) : Operand → Prop
  | .const _ => True
  | .stmt i => ∃ name ty, e.values[i]? = some (name, ty) ∧ InScope e.lines.toList name

/-- The id is that of an address in the field, and the terms of the address can be used. -/
def FindsAddress (e : Emitter) (p : StmtId) (field : Nat) : Prop :=
  ∃ a : Address, e.ptrs[p]? = some (field, a) ∧ ∀ x ∈ a.terms, InScope e.lines.toList x

/-- The id is that of a slot: a variable that can be used, or a shared slot of the kernel. -/
def FindsSlot (t : Target) (e : Emitter) (s : StmtId) : Prop :=
  (∃ hint ty, e.slots[s]? = some (.variable (varName s hint) ty) ∧ InScope e.lines.toList (varName s hint)) ∨
  ∃ x ∈ t.kernel.shared, x.slot = s ∧ e.slots[s]? = some (.shared x.offset x.ty)

structure Found (t : Target) (e : Emitter) (i : StmtId) (x : Def) : Prop where
  value : ∀ ty, x.ty? = some ty → ∃ name, e.values[i]? = some (name, ty) ∧ InScope e.lines.toList name
  address : ∀ f is offset, x = .op (.globalPtr f is offset) → FindsAddress e i f
  slot : ∀ ty hint, x = .op (.alloca ty hint) → FindsSlot t e i

section Later

variable {n : Nat} {I : StmtId → Prop} {W : List Char → Prop} {U : ResourceKind → Prop}

theorem FindsValue.later {o : Operand} (h : FindsValue e o) (ha : AddsFrom 0 n t I W U e e')
    (hi : ∀ i, o = .stmt i → ¬ I i) : FindsValue e' o := by
  cases o with
  | const l => trivial
  | stmt i =>
    obtain ⟨name, ty, hv, hn⟩ := h
    exact ⟨name, ty, by rw [ha.values i (hi i rfl), hv], ha.inScope hn⟩

theorem FindsSlot.later (h : FindsSlot t e s) (ha : AddsFrom 0 n t I W U e e') :
    FindsSlot t e' s := by
  rcases h with ⟨hint, ty, hs, hn⟩ | ⟨x, hx, hslot, hs⟩
  · exact .inl ⟨hint, ty, ha.kept _ _ hs, ha.inScope hn⟩
  · exact .inr ⟨x, hx, hslot, ha.kept _ _ hs⟩

theorem Found.later {i : StmtId} {x : Def} (h : Found t e i x) (ha : AddsFrom 0 n t I W U e e')
    (hi : ¬ I i) : Found t e' i x where
  value ty hty := by
    obtain ⟨name, hv, hn⟩ := h.value ty hty
    exact ⟨name, by rw [ha.values i hi, hv], ha.inScope hn⟩
  address f is offset hx := by
    obtain ⟨a, hp, hn⟩ := h.address f is offset hx
    exact ⟨a, by rw [ha.ptrs i hi, hp], fun y hy => ha.inScope (hn y hy)⟩
  slot ty hint hx := (h.slot ty hint hx).later ha

end Later

/-! ## 2. Resources of statements -/

/-- The resources that a simple statement mentions, given the fields of addresses and the slots that
are shared. -/
def Mentions (field : StmtId → Nat → Prop) (shared : StmtId → Prop) (o : Op) : ResourceKind → Prop
  | .field f => ∃ p, o.ptr? = some p ∧ field p f
  | .args => ∃ index ty, o = .argLoad index ty
  | .rets => ∃ value ty, o = .ret value ty
  | .shared => ∃ s, o.slot? = some s ∧ shared s
  | .texture x => ∃ op coords value ty, o = .texture x op coords value ty ∧ op ≠ .store
  | .sampler x => ∃ coords value ty, o = .texture x .sample coords value ty
  | .storageTexture x => ∃ coords value ty, o = .texture x .store coords value ty

theorem mentions_congr {field field' : StmtId → Nat → Prop} {shared shared' : StmtId → Prop}
    (hf : ∀ p, o.ptr? = some p → ∀ f, field p f ↔ field' p f)
    (hs : ∀ s, o.slot? = some s → (shared s ↔ shared' s)) :
    Mentions field shared o kind ↔ Mentions field' shared' o kind := by
  cases kind with
  | field f => exact exists_congr fun p => and_congr_right fun hp => hf p hp f
  | shared => exact exists_congr fun s => and_congr_right fun h => hs s h
  | _ => exact .rfl

def fieldAt (e : Emitter) (p : StmtId) (f : Nat) : Prop := ∃ a, e.ptrs[p]? = some (f, a)

def sharedAt (e : Emitter) (s : StmtId) : Prop :=
  ∃ offset ty, e.slots[s]? = some (.shared offset ty)

abbrev Binds (e : Emitter) (o : Op) : ResourceKind → Prop := Mentions (fieldAt e) (sharedAt e) o

/-- A simple statement has been written: it has added its own definition, names of its own, and the
resources that it mentions. -/
structure Emitted (t : Target) (id : StmtId) (o : Op) (e e' : Emitter) : Prop where
  adds : Adds t (· = id) (OfId id) (Binds e o) e e'
  found : Found t e' id (.op o)

namespace Emitted

variable {id : StmtId} {o : Op} {expr : String}

theorem ofWords {W : List Char → Prop} (hty : (Def.op o).ty? = some ty)
    (hadds : Adds t Never W (Binds e o) e e1)
    (hW : ∀ w, W w → OfId id w ∧ w ≠ wordOf (valueName id)) :
    Emitted t id o e (bindValue id ty expr t e1).2 where
  adds := by
    refine (hadds.trans (adds_bindValue t e1 id ty expr) fun w hw => (hW w hw).2).imp ?_ ?_ ?_
    · exact fun _ => (·.resolve_left not_false)
    · rintro w (hw | rfl)
      · exact (hW w hw).1
      · exact ofId_valueName
    · simp
  found :=
    { value := fun ty' hty' => by
        obtain rfl := Option.some.inj (hty.symm.trans hty')
        exact ⟨_, values_bindValue t e1 id ty expr, inScope_bindValue⟩
      address := by
        rintro f is offset ⟨⟩
        cases hty
      slot := by
        rintro ty' hint ⟨⟩
        cases hty }

theorem ofValue (hty : (Def.op o).ty? = some ty) (hadds : Adds t Never Never (Binds e o) e e1) :
    Emitted t id o e (bindValue id ty expr t e1).2 :=
  ofWords hty hadds fun _ => False.elim

theorem ofNone (hty : (Def.op o).ty? = none) (hptr : ∀ f is offset, o ≠ .globalPtr f is offset)
    (hslot : ∀ ty hint, o ≠ .alloca ty hint) (hadds : Adds t Never Never (Binds e o) e e') :
    Emitted t id o e e' where
  adds := hadds.imp nofun nofun fun _ => .rfl
  found :=
    { value := fun ty h => by
        rw [hty] at h
        cases h
      address := fun f is offset h => absurd (Def.op.inj h) (hptr f is offset)
      slot := fun ty hint h => absurd (Def.op.inj h) (hslot ty hint) }

end Emitted

theorem Emitted.before (h : Emitted t id o e e1) (ha : Adds t Never Never Never e1 e') :
    Emitted t id o e e' := ⟨h.adds.before ha, h.found.later ha not_false⟩

/-! ## 3. Fields and slots -/

theorem binds_of_ptr (hp : o.ptr? = some p) (h : Binds e o kind) : ∃ f, kind = .field f := by
  cases kind with
  | field f => exact ⟨f, rfl⟩
  | _ =>
    cases o with
    | globalLoad | globalStore => simp [Mentions, Op.slot?] at h
    | atomic target =>
      cases target with
      | global f p => simp [Mentions, Op.slot?] at h
      | «local» s is => cases hp
    | _ => cases hp

theorem binds_of_slot (hs : o.slot? = some s) (h : Binds e o kind) : kind = .shared := by
  cases kind with
  | shared => rfl
  | _ =>
    cases o with
    | localLoad | localStore => simp [Mentions, Op.ptr?] at h
    | atomic target =>
      cases target with
      | global f p => cases hs
      | «local» s is => simp [Mentions, Op.ptr?] at h
    | _ => cases hs

theorem adds_field {f : Nat} (hp : o.ptr? = some p) (h : e.ptrs[p]? = some (f, a)) :
    Adds t Never Never (Binds e o) e (resource (.field f) t e).2 := by
  refine (adds_resource t e (.field f)).congr fun kind => ⟨?_, fun hk => ?_⟩
  · rintro rfl
    exact ⟨p, hp, a, h⟩
  · obtain ⟨g, rfl⟩ := binds_of_ptr hp hk
    obtain ⟨q, hq, b, hb⟩ := hk
    rw [hp] at hq
    obtain rfl := Option.some.inj hq
    rw [h] at hb
    cases hb
    rfl

theorem localAccess_cases (h : FindsSlot t e s) (indices : List Operand) :
    (∃ access, access.IsVariable ∧ localAccess s indices t e = (access, e) ∧ ¬ sharedAt e s) ∨
    ∃ a, localAccess s indices t e = (.words a, e) ∧ sharedAt e s := by
  rcases h with ⟨hint, ty, hs, -⟩ | ⟨x, -, -, hs⟩
  · obtain ⟨access, hvar, heq⟩ := localAccess_variable hs (begins_varName s hint) t indices
    refine .inl ⟨access, hvar, heq, ?_⟩
    rintro ⟨offset, ty', hs'⟩
    rw [hs] at hs'
    cases hs'
  · obtain ⟨a, heq⟩ := localAccess_shared hs t indices
    exact .inr ⟨a, heq, _, _, hs⟩

section Slots

variable {o : Op} {s : StmtId} (hs : o.slot? = some s)
include hs

theorem adds_unshared (h : ¬ sharedAt e s) : Adds t Never Never (Binds e o) e e := by
  refine (AddsFrom.refl e).congr fun kind => ⟨False.elim, fun hk => ?_⟩
  obtain rfl := binds_of_slot hs hk
  obtain ⟨s', hs', hshared⟩ := hk
  rw [hs] at hs'
  exact h (Option.some.inj hs' ▸ hshared)

theorem adds_shared (h : sharedAt e s) :
    Adds t Never Never (Binds e o) e (resource .shared t e).2 := by
  refine (adds_resource t e .shared).congr fun kind => ⟨?_, binds_of_slot hs⟩
  rintro rfl
  exact ⟨s, hs, h⟩

end Slots

/-! ## 4. Read-modify-write -/

theorem emitted_atomicWord (hty : (Def.op o).ty? = some ty)
    (hadds : Adds t Never Never (Binds e o) e e1) {w : Word} (hw : Begins w.target)
    (kind : AtomicKind) (value : String) :
    Emitted t id o e (atomicWord id w kind value ty t e1).2 := by
  simp only [atomicWord]
  split
  · exact (Emitted.ofValue hty hadds).before (adds_line (isPlain_store hw))
  · split
    · exact .ofValue hty hadds
    · refine .ofWords hty (hadds.after (adds_exchangeLoop t e1 id w kind value (wordScalar ty))) ?_
      rintro x ⟨ending, hending, rfl⟩
      exact ofId_exchange hending

theorem begins_shared : Begins "global_tmps" := ⟨'g', 'l', _, rfl, by decide, by decide, rfl⟩

theorem sharedWords_eq (hb : Bound t e) :
    sharedWords a t e = (wordAt "global_tmps" a true, (resource .shared t e).2) := by
  have hname : (resource .shared t e).1 = "global_tmps" := resource_name hb .shared
  simp only [sharedWords, run_bind, hname]
  rfl

/-- A variable is read, and then written in terms of the value that was read. -/
theorem emitted_atomicVariable {access : LocalAccess} (hvar : access.IsVariable)
    (hty : (Def.op o).ty? = some ty) (hadds : Adds t Never Never (Binds e o) e e) (value : String) :
    Emitted t id o e ((do
      bindValue id ty (← readLocal access ty)
      (← writeLocal access ty value).forM line : Emit Unit) t e).2 := by
  simp only [run_bind, readLocal_variable hvar]
  generalize (readLocal access ty t e).1 = expr
  obtain ⟨hplain, hstate⟩ := writeLocal_variable hvar t (bindValue id ty expr t e).2 ty value
  rw [hstate]
  exact (Emitted.ofValue hty hadds).before (adds_lines hplain)

theorem emitted_atomic {target : AtomicTarget} {kind : AtomicKind} {value : Operand}
    (hb : Bound t e)
    (hptr : ∀ p, (Op.atomic target kind value ty).ptr? = some p → ∃ f, FindsAddress e p f)
    (hslot : ∀ s, (Op.atomic target kind value ty).slot? = some s → FindsSlot t e s) :
    Emitted t id (.atomic target kind value ty) e (emitAtomic id target kind value ty t e).2 := by
  simp only [emitAtomic, run_bind, operand_state]
  cases target with
  | global f p =>
    obtain ⟨f', a, ha, -⟩ := hptr p rfl
    simp only [run_bind, fieldWords?_eq hb ha]
    exact emitted_atomicWord rfl (adds_field rfl ha) (begins_wordAt (begins_fieldName t.kernel f')) kind _
  | «local» s indices =>
    simp only [run_bind]
    rcases localAccess_cases (hslot s rfl) indices with ⟨access, hvar, heq, hns⟩ | ⟨a, heq, hshared⟩
    · rw [heq]
      have hadds := adds_unshared (t := t) (o := .atomic (.local s indices) kind value ty) rfl hns
      cases access with
      | words a => cases hvar
      | expr text | row name cols r => exact emitted_atomicVariable hvar rfl hadds _
    · rw [heq]
      simp only [run_bind, sharedWords_eq hb]
      exact emitted_atomicWord rfl (adds_shared rfl hshared) (begins_wordAt begins_shared) kind _

/-! ## 5. Simple statements -/

def isComputed : Op → Bool
  | .binary .. | .unary .. | .compose .. | .extract .. | .call .. | .random _ | .loopControl _ => true
  | _ => false

theorem not_binds (h : isComputed o) : ¬ Binds e o kind := by
  cases o <;> cases kind <;> simp_all [isComputed, Mentions, Op.ptr?, Op.slot?]

theorem adds_computed (h : isComputed o) (hadds : Adds t Never Never Never e e') :
    Adds t Never Never (Binds e o) e e' :=
  hadds.congr fun _ => ⟨False.elim, not_binds h⟩

theorem emitted_texture {texture : Nat} {op : TextureOp} {coords : Operand}
    {value : Option Operand} :
    Emitted t id (.texture texture op coords value ty) e (emitTexture id texture op coords value ty t e).2 := by
  simp only [emitTexture, run_bind, operand_state]
  cases op with
  | load =>
    refine .ofValue rfl ((adds_resource t e (.texture texture)).congr fun kind => ?_)
    cases kind <;> simp [Mentions, Op.ptr?, Op.slot?, eq_comm]
  | sample =>
    have hboth := (adds_resource t e (.texture texture)).trans
      (adds_resource t _ (.sampler texture)) fun _ => False.elim
    refine .ofValue rfl (hboth.imp (fun _ => (·.elim False.elim False.elim))
      (fun _ => (·.elim False.elim False.elim)) ?_)
    intro kind
    cases kind <;> simp [Mentions, Op.ptr?, Op.slot?, eq_comm]
  | store =>
    have hstore : ∀ m : Emit String, (∀ e, (m t e).2 = e) → Adds t Never Never (· = .storageTexture texture) e ((do
        let tex ← resource (.storageTexture texture)
        let v ← m
        line s!"textureStore({tex}, {(operand coords t e).1}, {v});" : Emit Unit) t e).2 := by
      intro m hm
      simp only [run_bind, hm]
      refine (adds_resource t e (.storageTexture texture)).before (adds_line ⟨?_, ';', getLast?_append rfl, by decide⟩)
      have hbegin : Begins "textureStore(" := ⟨'t', 'e', _, rfl, by decide, by decide, rfl⟩
      exact (((((hbegin.append _).append _).append _).append _).append _).append _
    refine .ofNone rfl nofun nofun (.congr (U := (· = .storageTexture texture)) ?_ fun kind => ?_)
    · cases value with
      | none => exact hstore (pure (compose ty [])) fun _ => rfl
      | some v => exact hstore (operand v) fun e => operand_state t e v
    · cases kind <;> simp [Mentions, Op.ptr?, Op.slot?, eq_comm]

theorem isDeclaration_variable (id : StmtId) (hint ty : String) :
    IsDeclaration (s!"var {varName id hint}: {ty};") (varName id hint) := by
  refine ⟨⟨['v', 'a', 'r', ' '], by decide, ':', (" " ++ ty ++ ";").toList, ?_, rfl⟩, ';',
    getLast?_append rfl, by decide⟩
  show ("var " ++ varName id hint ++ ": " ++ ty ++ ";").toList = _
  simp only [String.toList_append, List.append_assoc]
  rfl

theorem IsDeclaration.emitted {text name : String} {o : Op} (h : IsDeclaration text name)
    (hname : OfId id (wordOf name)) (hnone : ∀ kind, ¬ Binds e o kind)
    (hadds : Adds t (· = id) Never Never (line text t e).2 e₁) :
    Adds t (· = id) (OfId id) (Binds e o) e e₁ := by
  refine (h.adds.trans hadds fun _ _ => not_false).imp ?_ ?_ ?_
  · exact fun _ => (·.resolve_left not_false)
  · rintro w (rfl | hw)
    · exact hname
    · exact hw.elim
  · exact fun kind => ⟨fun h => h.elim False.elim False.elim, fun h => (hnone kind h).elim⟩

theorem emitted_alloca {hint : String}
    (hfresh : ∀ s, e.slots[id]? = some s → ∃ x ∈ t.kernel.shared, x.slot = id ∧ s = .shared x.offset x.ty) :
    Emitted t id (.alloca ty hint) e (emitOp id (.alloca ty hint) t e).2 := by
  have hnone : ∀ kind, ¬ Binds e (.alloca ty hint) kind := fun kind => by
    cases kind <;> simp [Mentions, Op.ptr?, Op.slot?]
  have hfound : ∀ {e'}, FindsSlot t e' id → Found t e' id (.op (.alloca ty hint)) := fun h =>
    ⟨nofun, nofun, fun _ _ _ => h⟩
  have hcontains := Std.HashMap.contains_eq_isSome_getElem? (m := e.slots) (a := id)
  show Emitted t id _ e ((if !e.slots.contains id then _ else pure () : Emit Unit) t e).2
  cases hs : e.slots[id]? with
  | some s =>
    rw [hs] at hcontains
    rw [hcontains, if_neg (by simp)]
    obtain ⟨x, hx, hslot, rfl⟩ := hfresh s hs
    refine ⟨(AddsFrom.refl e).imp (fun _ => False.elim) (fun _ => False.elim) fun kind => ⟨False.elim, hnone kind⟩, ?_⟩
    exact hfound (.inr ⟨x, hx, hslot, hs⟩)
  | none =>
    rw [hs] at hcontains
    rw [hcontains, if_pos (by rfl)]
    have hdecl := isDeclaration_variable id hint ty.shaderText
    have hslot := adds_insertSlot (t := t) (e := (line s!"var {varName id hint}: {ty.shaderText};" t e).2) hs
      (.variable (varName id hint) ty)
    refine ⟨hdecl.emitted ofId_varName hnone hslot, hfound (.inl ⟨hint, ty, ?_, ?_⟩)⟩
    · exact Std.HashMap.getElem?_insert_self
    · exact hslot.inScope hdecl.start.inScope

theorem isDeclaration_address (id : StmtId) (terms : String) :
    IsDeclaration (s!"let {valueName id}: i32 = {terms};") (valueName id) := by
  refine ⟨⟨['l', 'e', 't', ' '], by decide, ':', (" i32 = " ++ terms ++ ";").toList, ?_, rfl⟩, ';',
    getLast?_append rfl, by decide⟩
  show ("let " ++ valueName id ++ ": i32 = " ++ terms ++ ";").toList = _
  simp only [String.toList_append, List.append_assoc]
  rfl

theorem emitted_address {field : Nat} {indices : List Operand} {offset : Operand} :
    Emitted t id (.globalPtr field indices offset) e (fieldAddress id field indices offset t e).2 := by
  have hnone : ∀ kind, ¬ Binds e (.globalPtr field indices offset) kind := fun kind => by
    cases kind <;> simp [Mentions, Op.ptr?, Op.slot?]
  have hfound : ∀ {e'}, FindsAddress e' id field → Found t e' id (.op (.globalPtr field indices offset)) := fun h =>
    ⟨nofun, fun _ _ _ hx => by cases hx; exact h, nofun⟩
  have hterms : ∀ (comps : Nat) (xs : List (Operand × UInt64)), ((xs.mapM fun x => do
      return (x.1, x.2.toInt64 * Int64.ofNat comps, ← operand x.1)
        : Emit (List (Operand × Int64 × String))) t e).2 = e := by
    refine fun comps xs => mapM_state t e (fun x => ?_) xs
    exact operand_state t e x.1
  unfold fieldAddress
  simp only [run_bind, run_read, operand_state, hterms]
  generalize Address.add _ offset 1 _ = sum
  cases hsum : sum.dynamic? with
  | none =>
    have hempty : sum.terms = [] := by
      unfold Address.dynamic? at hsum
      split at hsum
      · exact List.isEmpty_iff.1 ‹_›
      · cases hsum
    refine ⟨(adds_insertPtr id (field, sum)).imp (fun _ h => h) (fun _ => False.elim)
      fun kind => ⟨False.elim, hnone kind⟩, ?_⟩
    refine hfound ⟨sum, Std.HashMap.getElem?_insert_self, ?_⟩
    rw [hempty]
    nofun
  | some terms =>
    have hdecl := isDeclaration_address id terms
    let address : Address := { terms := [valueName id], offset := sum.offset }
    have hptr := adds_insertPtr (t := t) (e := (line s!"let {valueName id}: i32 = {terms};" t e).2) id (field, address)
    refine ⟨hdecl.emitted ofId_valueName hnone hptr, hfound ⟨address, ?_, ?_⟩⟩
    · exact Std.HashMap.getElem?_insert_self
    · intro x hx
      rw [List.mem_singleton.1 hx]
      exact hptr.inScope hdecl.start.inScope

theorem emitted_op (hb : Bound t e) (hptr : ∀ p, o.ptr? = some p → ∃ f, FindsAddress e p f)
    (hslot : ∀ s, o.slot? = some s → FindsSlot t e s)
    (hfresh : ∀ s, e.slots[id]? = some s → ∃ x ∈ t.kernel.shared, x.slot = id ∧ s = .shared x.offset x.ty) :
    Emitted t id o e (emitOp id o t e).2 := by
  cases o with
  | alloca ty hint => exact emitted_alloca hfresh
  | localLoad s indices ty =>
    simp only [emitOp, run_bind]
    rcases localAccess_cases (hslot s rfl) indices with ⟨access, hvar, heq, hns⟩ | ⟨a, heq, hshared⟩
    · simp only [heq, readLocal_variable hvar]
      exact Emitted.ofValue rfl (adds_unshared rfl hns)
    · simp only [heq]
      exact Emitted.ofValue rfl (adds_shared rfl hshared)
  | localStore s indices value =>
    simp only [emitOp, run_bind]
    rcases localAccess_cases (hslot s rfl) indices with ⟨access, hvar, heq, hns⟩ | ⟨a, heq, hshared⟩
    · simp only [heq, operandTy_state, operand_state]
      obtain ⟨hplain, hstate⟩ := writeLocal_variable hvar t e (operandTy value t e).1 (operand value t e).1
      rw [hstate]
      exact Emitted.ofNone rfl nofun nofun ((adds_unshared rfl hns).before (adds_lines hplain))
    · simp only [heq, operandTy_state, operand_state, writeLocal, run_bind, sharedWords_eq hb]
      refine Emitted.ofNone rfl nofun nofun ((adds_shared rfl hshared).before (adds_lines ?_))
      exact isPlain_writeWords (fun k => begins_wordAt begins_shared)
  | globalPtr field indices offset => exact emitted_address
  | globalLoad p ty =>
    obtain ⟨f, a, ha, -⟩ := hptr p rfl
    simp only [emitOp, run_bind, fieldWords?_eq hb ha]
    exact Emitted.ofValue rfl (adds_field rfl ha)
  | globalStore p value =>
    obtain ⟨f, a, ha, -⟩ := hptr p rfl
    simp only [emitOp, run_bind, fieldWords?_eq hb ha, operandTy_state, operand_state]
    refine Emitted.ofNone rfl nofun nofun ((adds_field rfl ha).before (adds_lines ?_))
    exact isPlain_writeWords (fun k => begins_wordAt (begins_fieldName t.kernel f))
  | binary op lhs rhs operandTy ty =>
    simp only [emitOp, run_bind, operand_state]
    split
    · exact Emitted.ofValue rfl (adds_computed rfl (.same rfl rfl rfl rfl rfl))
    · exact Emitted.ofValue rfl (adds_computed rfl (.refl e))
  | unary op x ty =>
    simp only [emitOp, run_bind, operand_state, operandTy_state]
    exact Emitted.ofValue rfl (adds_computed rfl (.refl e))
  | compose parts ty =>
    simp only [emitOp, run_bind, mapM_state t e (operand_state t e)]
    exact Emitted.ofValue rfl (adds_computed rfl (.refl e))
  | extract value indices ty =>
    simp only [emitOp, run_bind, operand_state, operandTy_state, mapM_state t e (indexText_state t e)]
    generalize (operandTy value t e).1 = valueTy
    generalize (List.mapM indexText indices t e).1 = texts
    -- whatever is selected, it is the value that is named
    cases valueTy <;> rcases texts with _ | ⟨i, _ | ⟨j, _ | ⟨k, texts⟩⟩⟩ <;>
      exact Emitted.ofValue rfl (adds_computed rfl (.refl e))
  | loopControl c =>
    cases c with
    | break_ =>
      refine Emitted.ofNone rfl nofun nofun (adds_computed rfl (adds_line ⟨?_, ';', rfl, by decide⟩))
      exact ⟨'b', 'r', _, rfl, by decide, by decide, rfl⟩
    | continue_ =>
      refine Emitted.ofNone rfl nofun nofun (adds_computed rfl (adds_line ⟨?_, ';', rfl, by decide⟩))
      exact ⟨'c', 'o', _, rfl, by decide, by decide, rfl⟩
  | atomic target kind value ty => exact emitted_atomic hb hptr hslot
  | call i args argTys ty =>
    simp only [emitOp, run_bind, mapM_state t e (operand_state t e)]
    exact Emitted.ofValue rfl (adds_computed rfl (.refl e))
  | texture texture op coords value ty => exact emitted_texture
  | ret value ty =>
    have hname : (resource .rets t e).1 = "rets" := resource_name hb .rets
    simp only [emitOp, run_bind, operand_state, hname]
    refine Emitted.ofNone rfl nofun nofun (((adds_resource t e .rets).congr fun kind => ?_).before (adds_lines ?_))
    · cases kind <;> simp [Mentions, Op.ptr?, Op.slot?]
    · exact isPlain_writeWords (fun k => begins_wordAt begins_rets)
  | random ty =>
    exact Emitted.ofValue rfl (adds_computed rfl (.same rfl rfl rfl rfl rfl))
  | argLoad index ty =>
    refine Emitted.ofValue rfl ((adds_resource t e .args).congr fun kind => ?_)
    cases kind <;> simp [Mentions, Op.ptr?, Op.slot?]

end ArrayKernel.Shader
