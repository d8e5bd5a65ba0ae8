import ArrayKernel.Proofs.Lowering.Kernel
import ArrayKernel.Scope.Manifest

/-!
# What the host gives

What is asked of the values of a host is asked of the members of records too. Scopes that are built
from manifests have constants with as many components as their types say.
-/

namespace ArrayKernel.Lowering

open IR Surface List

variable {H : Host} {scope : Scope} {templates : List (String × Value)} {r : Resources} {v : Value}

/-! ## 1. All values of a host -/

mutual

def ValueAll (P : Value → Prop) : Value → Prop
  | .record r => P (.record r) ∧ RecordAll P r
  | v => P v

def RecordAll (P : Value → Prop) : Record → Prop
  | .nil => True
  | .cons _ v rest => ValueAll P v ∧ RecordAll P rest

end

/-- The condition holds of everything that a kernel is compiled with. -/
structure HostGives (P : Value → Prop) (scope : Scope) (templates : List (String × Value)) :
    Prop where
  table : ∀ p ∈ scope.table, ValueAll P p.2
  receiver : ∀ v ∈ scope.receiver, ValueAll P v
  templates : ∀ p ∈ templates, ValueAll P p.2

section Given

variable {P Q : Value → Prop} {settings : CompilerSettings} {k : Kernel}

mutual

theorem ValueAll.imp (h : ∀ v, P v → Q v) : (v : Value) → ValueAll P v → ValueAll Q v
  | .record r, hv => ⟨h _ hv.1, .imp h r hv.2⟩
  | .number _, hv | .function _, hv => h _ hv
  | .array _ _, hv
  | .field _, hv | .texture _, hv | .place _, hv | .bound _ _, hv | .arg _ _, hv => h _ hv

theorem RecordAll.imp (h : ∀ v, P v → Q v) : (r : Record) → RecordAll P r → RecordAll Q r
  | .nil, _ => trivial
  | .cons _ v rest, hr => ⟨.imp h v hr.1, .imp h rest hr.2⟩

end

theorem HostGives.imp (hg : HostGives P scope templates) (h : ∀ v, P v → Q v) :
    HostGives Q scope templates where
  table p hp := .imp h p.2 (hg.table p hp)
  receiver v hv := .imp h v (hg.receiver v hv)
  templates p hp := .imp h p.2 (hg.templates p hp)

mutual

theorem valueOk_of_all (hP : ∀ v, v.isRecord = false → P v → ValueOk H .empty v) :
    (v : Value) → ValueAll P v → ValueOk H .empty v
  | .record r, h => recordOk_of_all hP r h.2
  | .number _, _ | .function _, _ => trivial
  | .array _ _, h
  | .field _, h | .texture _, h | .place _, h | .bound _ _, h | .arg _ _, h => hP _ rfl h

theorem recordOk_of_all (hP : ∀ v, v.isRecord = false → P v → ValueOk H .empty v) :
    (r : Record) → RecordAll P r →
    RecordOk H .empty r
  | .nil, _ => trivial
  | .cons _ v rest, h => ⟨valueOk_of_all hP v h.1, recordOk_of_all hP rest h.2⟩

end

/-- Every kernel passes the check, as far as what the host gives is good for it, and refers to
fields of the host only. -/
theorem HostGives.tracked {r : Routine} (hg : HostGives P scope templates)
    (hP : ∀ v, v.isRecord = false → P v → ValueOk H .empty v)
    (harg : ∀ x ∈ argumentsFrom 0 k.params, H.arg x.1 x.2)
    (h : lower r scope templates settings = .ok k) :
    Check.tasks (fun past => Lowering.discipline H k.fields past k.ret) [] k.tasks
      ∧ (k.tasks.flatMap Task.ids).Nodup ∧ ∀ f ∈ k.fields, H.field f := by
  refine discipline_lower ⟨?_, ?_⟩ ?_ harg h
  · exact fun p hp => valueOk_of_all hP p.2 (hg.table p hp)
  · exact fun v hv => valueOk_of_all hP v (hg.receiver v hv)
  · exact fun p hp => valueOk_of_all hP p.2 (hg.templates p hp)

theorem HostGives.discipline {r : Routine} (hg : HostGives P scope templates)
    (hP : ∀ v, v.isRecord = false → P v → ValueOk H .empty v)
    (h : lower r scope templates settings = .ok k) (harg : ∀ index ty, H.arg index ty) :
    Check.tasks (fun past => Lowering.discipline H k.fields past k.ret) [] k.tasks
      ∧ (k.tasks.flatMap Task.ids).Nodup := by
  obtain ⟨htasks, hnodup, -⟩ := hg.tracked hP (fun x _ => harg x.1 x.2) h
  exact ⟨htasks, hnodup⟩

end Given

/-! ## 2. Hosts -/

def anyHost : Host :=
  { field := fun _ => True, texture := fun _ => True, flat := False, typed := False }

theorem valueOk_anyHost (v : Value) (hr : v.isRecord = false) (h : v.isTransient = false) :
    ValueOk anyHost .empty v := by
  cases v with
  | record r => cases hr
  | place p | bound o ty | arg i ty => cases h
  | array vs ty => exact ⟨nofun, nofun⟩
  | number l | field f | texture t | function f => trivial

/-- The fields and textures of a value are among the given ones, and a constant vector or matrix has
the components that its type says. -/
def WellFormed (r : Resources) : Value → Prop
  | .array vs ty => ArrayOk vs ty
  | .field f => r.field f
  | .texture t => r.texture t
  | v => v.isTransient = false

theorem WellFormed.isTransient (h : WellFormed r v) : v.isTransient = false := by
  cases v <;> first | rfl | exact h

def typedHost (r : Resources) : Host := { r with flat := True, typed := True }

theorem valueOk_typedHost (v : Value) (hr : v.isRecord = false) (h : WellFormed r v) :
    ValueOk (typedHost r) .empty v := by
  cases v with
  | record r => cases hr
  | place p | bound o ty | arg i ty => cases h
  | array vs ty =>
    refine ⟨fun _ => ?_, fun _ => h⟩
    obtain ⟨s, hs, -⟩ := ArrayOk.scalar h
    cases ty with
    | struct ms => cases hs
    | _ => rfl
  | number l => trivial
  | field f | texture t => exact h
  | function f => trivial

/-! ## 3. Constants -/

section Constants

variable {r : Resources} {ls : List Literal} {ty : Ty}

theorem arrayOk_vector {s : Scalar} (h : Ty.ofVector s ls.length = .ok ty)
    (hs : ∀ l ∈ ls, l.scalar = s) : ArrayOk ls ty := by
  obtain ⟨d, rfl, hd⟩ := Ty.ofVector_eq h
  exact ⟨hd.symm, ⟨s, rfl, hs⟩, rfl⟩

theorem arrayOk_matrix {m n : Nat} (h : Ty.ofMatrix m n = .ok ty)
    (hlen : ls.length = m * n) (hs : ∀ l ∈ ls, l.scalar = .f32) : ArrayOk ls ty := by
  obtain ⟨a, b, rfl, ha, hb⟩ := Ty.ofMatrix_eq h
  refine ⟨?_, ⟨.f32, rfl, hs⟩, rfl⟩
  rw [hlen, Ty.size, ha, hb]

theorem matrixEntries_ok {cols : Nat} {rows : List (List Toml)}
    (h : matrixEntries cols rows = .ok ls) :
    ls.length = rows.length * cols ∧ ∀ l ∈ ls, l.scalar = .f32 := by
  induction rows generalizing ls with
  | nil =>
    cases h
    exact ⟨by simp, nofun⟩
  | cons row rows ih =>
    unfold matrixEntries at h
    split at h
    · cases h
    · rename_i hlen
      split at h
      · cases h
      · rename_i entries hentries
        cases hrest : matrixEntries cols rows with
        | error err =>
          rw [hrest] at h
          cases h
        | ok rest =>
          rw [hrest] at h
          cases h
          obtain ⟨hl, hs⟩ := ih hrest
          refine ⟨?_, fun l hl => ?_⟩
          · have hrow : entries.length = cols := by
              rw [(mapM_eq_some hentries).1]
              exact not_not.1 hlen
            rw [length_append, length_map, hrow, hl, length_cons, Nat.succ_mul, Nat.add_comm]
          · rcases mem_append.1 hl with hl | hl
            · obtain ⟨x, -, rfl⟩ := mem_map.1 hl
              exact Literal.scalar_cast x .f32
            · exact hs l hl

theorem all_ofTomlArray {items : List Toml} (h : Value.ofTomlArray items = .ok v) :
    ValueAll (WellFormed r) v := by
  unfold Value.ofTomlArray at h
  split at h
  · extract_lets cols at h
    obtain ⟨ls, hls, h⟩ := except_bind_ok h
    obtain ⟨hlen, hs⟩ := matrixEntries_ok hls
    split at h
    · cases h
      exact arrayOk_matrix ‹_› hlen hs
    · cases h
  · split at h
    · cases h
    · extract_lets s at h
      split at h
      · cases h
        refine arrayOk_vector (by rwa [length_map]) fun l hl => ?_
        obtain ⟨x, -, rfl⟩ := mem_map.1 hl
        exact Literal.scalar_cast x s
      · cases h

mutual

theorem all_ofToml {v : Value} : (t : Toml) → Value.ofToml t = .ok v → ValueAll (WellFormed r) v
  | .integer n, h => by
    unfold Value.ofToml at h
    cases hl : Literal.ofToml? (.integer n) with
    | none =>
      rw [hl] at h
      cases h
    | some l =>
      rw [hl] at h
      cases h
      rfl
  | .float x, h => by
    cases h
    rfl
  | .boolean b, h => by
    cases h
    rfl
  | .string s, h | .datetime d, h => by cases h
  | .array items, h => by
    exact all_ofTomlArray h
  | .table entries, h => by
    have h : (recordOfToml entries).map Value.record = .ok v := h
    cases hrec : recordOfToml entries with
    | error err =>
      rw [hrec] at h
      cases h
    | ok rec =>
      rw [hrec] at h
      cases h
      exact ⟨rfl, all_recordOfToml entries hrec⟩

theorem all_recordOfToml {rec : Record} : (es : List (String × Toml)) → recordOfToml es = .ok rec →
    RecordAll (WellFormed r) rec
  | [], h => by
    cases h
    trivial
  | (k, t) :: es, h => by
    unfold recordOfToml at h
    obtain ⟨v, hv, h⟩ := except_bind_ok h
    obtain ⟨rest, hrest, h⟩ := except_bind_ok h
    cases h
    exact ⟨all_ofToml t hv, all_recordOfToml es hrest⟩

end

end Constants

/-! ## 4. Manifests -/

section Manifests

variable {ε σ α β : Type}

theorem stateT_bind_ok {x : StateT σ (Except ε) α} {f : α → StateT σ (Except ε) β} {b : β}
    {s s'' : σ} (h : (x >>= f) s = .ok (b, s'')) :
    ∃ a s', x s = .ok (a, s') ∧ f a s' = .ok (b, s'') := by
  obtain ⟨⟨a, s'⟩, hx, hf⟩ := except_bind_ok h
  exact ⟨a, s', hx, hf⟩

theorem foldlM_keeps {f : β → α → StateT σ (Except ε) β} {I : β → Prop}
    (hf : ∀ b a s b' s', I b → f b a s = .ok (b', s') → I b') {xs : List α} {b b' : β} {s s' : σ}
    (hb : I b) (h : xs.foldlM f b s = .ok (b', s')) : I b' := by
  induction xs generalizing b s with
  | nil =>
    cases h
    exact hb
  | cons x xs ih =>
    obtain ⟨c, s1, hx, h⟩ := stateT_bind_ok h
    exact ih (hf _ _ _ _ _ hb hx) h

theorem HostGives.insert {P : Value → Prop} {name : String} (h : HostGives P scope templates)
    (hv : ValueAll P v) : HostGives P (scope.insert name v) templates where
  table p hp := by
    rcases Scope.mem_insertInto hp with rfl | hp
    · exact hv
    · exact h.table p hp
  receiver := h.receiver
  templates := h.templates

variable {reg : Registry σ} {scope scope' : Scope} {name : String} {s s' : σ} {m : Manifest}

theorem lift_ok {x : Except ε α} {a : α} (h : (liftM x : StateT σ (Except ε) α) s = .ok (a, s')) :
    x = .ok a ∧ s' = s := by
  cases x with
  | error e => cases h
  | ok a =>
    cases h
    exact ⟨rfl, rfl⟩

theorem addConstant_ok {t : Toml} (h : Manifest.addConstant scope name t = .ok scope') :
    ∃ v, Value.ofToml t = .ok v ∧ scope' = scope.insert name v := by
  unfold Manifest.addConstant at h
  split at h <;> cases h
  exact ⟨_, ‹_›, rfl⟩

theorem addField_ok {d : FieldDecl} (h : Manifest.addField reg scope name d s = .ok (scope', s')) :
    (d.shape.isEmpty || d.shape.contains 0) = false ∧ ∃ elem f, d.elemTy name = .ok elem
      ∧ reg.field name d.shape elem d.init s = .ok (f, s') ∧ scope' = scope.insert name (.field f) := by
  unfold Manifest.addField at h
  split at h
  · cases h
  · obtain ⟨elem, s1, helem, hrest⟩ := stateT_bind_ok h
    obtain ⟨f, s2, hf, hlast⟩ := stateT_bind_ok hrest
    obtain ⟨hd, rfl⟩ := lift_ok helem
    cases hlast
    exact ⟨Bool.eq_false_iff.2 ‹_›, elem, f, hd, hf, rfl⟩

theorem addTexture_ok {d : TextureDecl}
    (h : Manifest.addTexture reg scope name d s = .ok (scope', s')) :
    ¬(d.dims.length ≠ 2 ∧ d.dims.length ≠ 3) ∧ ∃ format t, TexelFormat.ofName? d.format = some format
      ∧ reg.texture name d.dims format d.storage s = .ok (t, s') ∧ scope' = scope.insert name (.texture t) := by
  unfold Manifest.addTexture at h
  split at h
  · cases h
  · split at h
    · cases h
    · obtain ⟨t, s1, ht, hlast⟩ := stateT_bind_ok h
      cases hlast
      exact ⟨‹_›, _, t, ‹_›, ht, rfl⟩

theorem addFunction_ok {source : String} (h : Manifest.addFunction scope name source = .ok scope') :
    ∃ f, scope' = scope.insert name (.function f) := by
  unfold Manifest.addFunction at h
  cases hf : FunctionValue.ofHost name source <;> rw [hf] at h <;> cases h
  exact ⟨_, rfl⟩

/-- The values that a scope is built from. -/
inductive Registry.Binds (reg : Registry σ) : Value → Prop where
  | constant {t : Toml} {v : Value} : Value.ofToml t = .ok v → Binds reg v
  | field {d : FieldDecl} {name : String} {elem : Ty} {f : FieldInfo}
      {s s' : σ} : (d.shape.isEmpty || d.shape.contains 0) = false →
    reg.field name d.shape elem d.init s = .ok (f, s') → Binds reg (.field f)
  | texture {name : String} {dims : List Nat} {format : TexelFormat} {storage : Bool} {s s' : σ} {t : TextureInfo} :
    reg.texture name dims format storage s = .ok (t, s') → Binds reg (.texture t)
  | function (f : FunctionValue) : Binds reg (.function f)

theorem build_keeps {I : Scope → Prop} (hempty : I {})
    (hinsert : ∀ sc name v, I sc → Registry.Binds reg v → I (sc.insert name v))
    (h : m.build reg s = .ok (scope, s')) : I scope := by
  obtain ⟨sc1, s1, h1, k1⟩ := stateT_bind_ok h
  obtain ⟨sc2, s2, h2, k2⟩ := stateT_bind_ok k1
  obtain ⟨sc3, s3, h3, k3⟩ := stateT_bind_ok k2
  have hconstants : I sc1 := by
    refine foldlM_keeps ?_ hempty h1
    rintro sc ⟨name, t⟩ _ sc' _ hsc h
    obtain ⟨v, hv, rfl⟩ := addConstant_ok (lift_ok h).1
    exact hinsert _ _ _ hsc (.constant hv)
  have hfields : I sc2 := by
    refine foldlM_keeps ?_ hconstants h2
    rintro sc ⟨name, d⟩ _ sc' _ hsc h
    obtain ⟨hshape, elem, f, -, hf, rfl⟩ := addField_ok h
    exact hinsert _ _ _ hsc (.field hshape hf)
  have htextures : I sc3 := by
    refine foldlM_keeps ?_ hfields h3
    rintro sc ⟨name, d⟩ _ sc' _ hsc h
    obtain ⟨-, format, t, -, ht, rfl⟩ := addTexture_ok h
    exact hinsert _ _ _ hsc (.texture ht)
  refine foldlM_keeps ?_ htextures k3
  rintro sc ⟨name, source⟩ _ sc' _ hsc h
  obtain ⟨f, rfl⟩ := addFunction_ok (lift_ok h).1
  exact hinsert _ _ _ hsc (.function f)

/-- The fields and textures that have a name in a scope. -/
def resourcesOf (scope : Scope) : Resources where
  field f := ∃ name, (name, .field f) ∈ scope.table
  texture t := ∃ name, (name, .texture t) ∈ scope.table

/-- Scopes that are built have only well-formed values, and no resources but their own. -/
theorem given_build (h : m.build reg s = .ok (scope, s')) :
    HostGives (WellFormed (resourcesOf scope)) scope [] := by
  obtain ⟨hreceiver, hbinds⟩ : scope.receiver = none ∧ ∀ p ∈ scope.table, Registry.Binds reg p.2 := by
    refine build_keeps (I := fun sc => sc.receiver = none ∧ ∀ p ∈ sc.table, Registry.Binds reg p.2) ⟨rfl, nofun⟩ ?_ h
    rintro sc name v ⟨hnone, hsc⟩ hv
    refine ⟨hnone, fun p hp => ?_⟩
    rcases Scope.mem_insertInto hp with rfl | hp
    · exact hv
    · exact hsc p hp
  refine ⟨fun ⟨name, v⟩ hp => ?_, fun v hv => ?_, nofun⟩
  · cases hbinds _ hp with
    | constant hv => exact all_ofToml _ hv
    | field | texture => exact ⟨name, hp⟩
    | function f => rfl
  · rw [hreceiver] at hv
    cases hv

end Manifests

end ArrayKernel.Lowering
