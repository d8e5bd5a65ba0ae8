import ArrayKernel.Proofs.Lowering.Given
import ArrayKernel.Proofs.Sessions

/-!
# Scopes built in a session

A manifest that can be built in a session gives the same scope where resources are only counted, so
that kernels compile to the same shaders (`deployed_of_build`). Fields hold what they are filled
with: no field is built whose size is out of range.
-/

namespace ArrayKernel

open Lowering Number List

/-! ## 1. Repetitions -/

/-- A field that is filled holds the words of one element over and over. -/
theorem filled_eq_flatten (f : FieldInfo) (v : Binary64) :
    filled f v = (replicate f.extents.prod (f.elem.scalars.map (Session.fillWord v))).flatten := by
  have hlength : (f.elem.scalars.map (Session.fillWord v)).length = f.elem.size := by
    rw [length_map, Ty.length_scalars]
  rw [← cycled_eq_filled]
  apply ext_getElem?
  intro i
  by_cases hi : i < f.storage
  · rw [getElem?_cycled hi, getElem?_flatten_replicate (by rwa [hlength])]
  · rw [Session.cycled, getElem?_take, if_neg hi, getElem?_eq_none]
    rw [length_flatten, map_replicate, sum_replicate_nat, hlength]
    exact Nat.le_of_not_lt hi

/-! ## 2. One declaration -/

/-- A field is what its declaration asks for. Its size is in range, and it holds its initial value
in all elements. -/
structure HasContents (decl : String × FieldDecl) (x : FieldInfo × List UInt32) : Prop where
  name : x.1.name = decl.1
  shape : x.1.shape = decl.2.shape
  elem : decl.2.elemTy decl.1 = .ok x.1.elem
  init : ∃ len, x.1.len = .ok len ∧
    ∀ v ∈ decl.2.init, x.2 = (replicate len (x.1.elem.scalars.map (Session.fillWord v))).flatten

/-- The fields of a session are those that the declarations ask for, and another registry has
counted as many. -/
structure Built (decls : List (String × FieldDecl)) (made : List (FieldInfo × List UInt32))
    (scope : Scope) (s : Session) (c : IdCounter) : Prop where
  books : Books { fields := made } [] s
  counted : c = ⟨made.length, s.textures.size⟩
  contents : List.Forall₂ HasContents decls made
  ids : made.map (·.1.id) = range made.length
  bound {name : String} {f : FieldInfo} : scope.get? name = some (.field f) → ∃ ws, (f, ws) ∈ made

variable {decls : List (String × FieldDecl)} {made : List (FieldInfo × List UInt32)}
  {scope scope' : Scope} {s s' : Session} {c : IdCounter} {name : String} {f : FieldInfo}

theorem forManifest_ok {α : Type} {x : SessionM α} {a : α}
    (h : Session.forManifest name x s = .ok (a, s')) : x s = .ok a s' := by
  unfold Session.forManifest at h
  split at h <;> cases h
  assumption

theorem createField_ok {shape : List UInt64} {elem : Ty} (h : Books { fields := made } [] s)
    (hok : Session.createField name shape elem s = .ok f s') :
    f = ⟨made.length, name, shape, elem⟩ ∧ s'.textures = s.textures ∧ (∃ size, f.bytes = .ok size) ∧
      Books { fields := made ++ [(f, replicate f.storage 0)] } [] s' := by
  rw [Books.createField_eq (congrArg (FieldInfo.mk · name shape elem) h.size_fields.symm)] at hok
  split at hok
  · cases hok
  · split at hok <;> cases hok
    exact ⟨rfl, rfl, ⟨_, ‹_›⟩, h.createStored rfl ‹_›⟩

theorem fillField_ok {v : Binary64} {ws : List UInt32} {u : Unit}
    (h : Books { fields := made ++ [(f, ws)] } [] s) (hid : f.id = made.length)
    (hwords : f.words = .ok f.storage) (hok : Session.fillField f v s = .ok u s') :
    s'.textures = s.textures ∧ Books { fields := made ++ [(f, filled f v)] } [] s' := by
  obtain ⟨-, h'⟩ := h.refines_step (.fill f v)
  rw [Session.step_ok rfl hok] at h'
  constructor
  · rw [fillField_of_words hwords, Shows.writeField_eq] at hok
    split at hok
    · cases hok
    · split at hok
      · cases hok
      · split at hok <;> cases hok
        rfl
  · rw [FieldMap.after, hid, set_append_right (h := Nat.le_refl _), Nat.sub_self] at h'
    exact h'

theorem registry_field {shape : List UInt64} {elem : Ty} {init : Option Binary64}
    (h : Books { fields := made } [] s)
    (hok : Session.registry.field name shape elem init s = .ok (f, s')) :
    f = ⟨made.length, name, shape, elem⟩ ∧ s'.textures = s.textures ∧ (∃ size, f.bytes = .ok size) ∧
      ∃ ws, Books { fields := made ++ [(f, ws)] } [] s' ∧ ∀ v ∈ init, ws = filled f v := by
  have hrun := forManifest_ok hok
  cases hcreate : Session.createField name shape elem s with
  | error e s1 =>
    rw [Shows.run_bind_error hcreate] at hrun
    cases hrun
  | ok g s1 =>
    obtain ⟨rfl, htextures, ⟨size, hsize⟩, h1⟩ := createField_ok h hcreate
    rw [Shows.run_bind hcreate] at hrun
    cases init with
    | none =>
      cases hrun
      exact ⟨rfl, htextures, ⟨size, hsize⟩, _, h1, nofun⟩
    | some v =>
      replace hrun : (Session.fillField ⟨made.length, name, shape, elem⟩ v >>= fun _ => pure _) s1 = .ok f s' := hrun
      cases hfill : Session.fillField ⟨made.length, name, shape, elem⟩ v s1 with
      | error e s2 =>
        rw [Shows.run_bind_error hfill] at hrun
        cases hrun
      | ok u s2 =>
        rw [Shows.run_bind hfill] at hrun
        cases hrun
        obtain ⟨htextures', h2⟩ := fillField_ok h1 rfl (FieldInfo.bytes_ok hsize).1 hfill
        exact ⟨rfl, htextures'.trans htextures, ⟨size, hsize⟩, _, h2, fun w hw => congrArg _ (Option.some.inj hw)⟩

theorem registry_texture {dims : List Nat} {format : TexelFormat} {storage : Bool} {t : TextureInfo}
    (h : Books { fields := made } [] s)
    (hok : Session.registry.texture name dims format storage s = .ok (t, s')) :
    t = ⟨s.textures.size, name, dims, format, storage⟩ ∧ s'.textures.size = s.textures.size + 1 ∧
      Books { fields := made } [] s' := by
  have hrun := forManifest_ok hok
  rw [Shows.createTexture_eq rfl] at hrun
  split at hrun
  · cases hrun
  · cases hrun
    exact ⟨rfl, Array.size_push .., h.congr ⟨rfl, rfl, rfl, rfl, rfl⟩⟩

namespace Built

theorem insert {v : Value} (h : Built decls made scope s c) (hv : ∀ f, v ≠ .field f) :
    Built decls made (scope.insert name v) s c where
  books := h.books
  counted := h.counted
  contents := h.contents
  ids := h.ids
  bound {n f} hf := by
    rw [Scope.get?_insert] at hf
    split at hf
    · exact absurd (Option.some.inj hf) (hv f)
    · exact h.bound hf

theorem addField {d : FieldDecl} (h : Built decls made scope s c)
    (hok : Manifest.addField Session.registry scope name d s = .ok (scope', s')) :
    ∃ c', Manifest.addField Registry.counting scope name d c = .ok (scope', c') ∧
      ∃ x, Built (decls ++ [(name, d)]) (made ++ [x]) scope' s' c' := by
  obtain ⟨hshape, elem, f, hd, hf, rfl⟩ := addField_ok hok
  obtain ⟨rfl, htextures, ⟨size, hsize⟩, ws, hbooks, hinit⟩ := registry_field h.books hf
  obtain rfl := h.counted
  refine ⟨⟨made.length + 1, s.textures.size⟩, ?_, (_, ws), hbooks, ?_, ?_, ?_, ?_⟩
  · unfold Manifest.addField
    rw [hshape, hd]
    rfl
  · simp [htextures]
  · refine rel_append h.contents (.cons ⟨rfl, rfl, hd, _, FieldInfo.len_of_bytes hsize, fun v hv => ?_⟩ .nil)
    rw [hinit v hv, filled_eq_flatten]
  · simp [h.ids, range_succ]
  · intro n g hg
    rw [Scope.get?_insert] at hg
    split at hg
    · cases hg
      exact ⟨ws, by simp⟩
    · obtain ⟨ws', hmem⟩ := h.bound hg
      exact ⟨ws', mem_append_left _ hmem⟩

theorem addTexture {d : TextureDecl} (h : Built decls made scope s c)
    (hok : Manifest.addTexture Session.registry scope name d s = .ok (scope', s')) :
    ∃ c', Manifest.addTexture Registry.counting scope name d c = .ok (scope', c') ∧ Built decls made scope' s' c' := by
  obtain ⟨hdims, format, t, hformat, ht, rfl⟩ := addTexture_ok hok
  obtain ⟨rfl, hsize, hbooks⟩ := registry_texture h.books ht
  obtain rfl := h.counted
  refine ⟨⟨made.length, s.textures.size + 1⟩, ?_, insert ⟨hbooks, ?_, h.contents, h.ids, h.bound⟩ fun f => nofun⟩
  · unfold Manifest.addTexture
    rw [if_neg hdims, hformat]
    rfl
  · rw [hsize]

end Built

theorem stateT_bind_of {α β σ ε : Type} {x : StateT σ (Except ε) α} {f : α → StateT σ (Except ε) β}
    {a : α} {s s' : σ} {r : Except ε (β × σ)} (hx : x s = .ok (a, s')) (hf : f a s' = r) :
    (x >>= f) s = r := by
  show (x s >>= fun y => f y.1 y.2) = r
  rw [hx]
  exact hf

theorem foldlM_follows {α β σ τ ε : Type} {f : β → α → StateT σ (Except ε) β}
    {g : β → α → StateT τ (Except ε) β} {R : List α → β → σ → τ → Prop}
    (hstep : ∀ done b a s t b' s', R done b s t → f b a s = .ok (b', s') →
      ∃ t', g b a t = .ok (b', t') ∧ R (done ++ [a]) b' s' t')
    (xs : List α) {d : List α} {b b' : β} {s s' : σ} {t : τ} (h : R d b s t)
    (hok : xs.foldlM f b s = .ok (b', s')) :
    ∃ t', xs.foldlM g b t = .ok (b', t') ∧ R (d ++ xs) b' s' t' := by
  induction xs generalizing d b s t with
  | nil =>
    cases hok
    exact ⟨t, rfl, by rwa [append_nil]⟩
  | cons x xs ih =>
    obtain ⟨b1, s1, hx, hxs⟩ := stateT_bind_ok hok
    obtain ⟨t1, hx', h1⟩ := hstep _ _ _ _ _ _ _ h hx
    obtain ⟨t', hxs', h'⟩ := ih h1 hxs
    exact ⟨t', stateT_bind_of hx' hxs', by simpa using h'⟩

theorem Built.fields (fields : List (String × FieldDecl)) (h : Built [] [] scope s c)
    (hok : fields.foldlM (fun scope x => Manifest.addField Session.registry scope x.1 x.2) scope s = .ok (scope', s')) :
    ∃ c', fields.foldlM (fun scope x => Manifest.addField Registry.counting scope x.1 x.2) scope c = .ok (scope', c')
      ∧ ∃ made, Built fields made scope' s' c' := by
  refine foldlM_follows (R := fun decls scope s c => ∃ made, Built decls made scope s c) ?_ fields ⟨[], h⟩ hok
  rintro done scope x s c scope' s' ⟨made, hb⟩ hx
  obtain ⟨c', hc, y, hy⟩ := hb.addField hx
  exact ⟨c', hc, _, hy⟩

theorem Built.textures (textures : List (String × TextureDecl)) (h : Built decls made scope s c)
    (hok : textures.foldlM (fun scope x => Manifest.addTexture Session.registry scope x.1 x.2)
      scope s = .ok (scope', s')) :
    ∃ c', textures.foldlM (fun scope x => Manifest.addTexture Registry.counting scope x.1 x.2)
      scope c = .ok (scope', c')
      ∧ Built decls made scope' s' c' := by
  refine foldlM_follows (R := fun _ scope s c => Built decls made scope s c) ?_ textures (d := []) h hok
  intro done scope x s c scope' s' hb hx
  exact hb.addTexture hx

/-- What a manifest comes to in a session. -/
structure Deployed (m : Manifest) (scope : Scope) (s : Session) : Prop where
  counted : ∃ c, m.build Registry.counting {} = .ok (scope, c)
  /-- Fields are numbered in the order of their declarations, and hold their contents. -/
  contents : ∃ made, List.Forall₂ HasContents m.fields made ∧ made.map (·.1.id) = range made.length
    ∧ (∀ name f, scope.get? name = some (.field f) → ∃ ws, (f, ws) ∈ made)
    ∧ ∀ x ∈ made, ∃ s', Session.readWords x.1 s = .ok x.2 s'

theorem ofToml_ne_field {t : Toml} {v : Value} (h : Value.ofToml t = .ok v) (f : FieldInfo) :
    v ≠ .field f := by
  rintro rfl
  exact all_ofToml (r := ⟨fun _ => False, fun _ => False⟩) t h

theorem Built.addConstant {t : Toml} (h : Built decls made scope s c)
    (hok : Manifest.addConstant scope name t = .ok scope') : Built decls made scope' s c := by
  obtain ⟨v, hv, rfl⟩ := addConstant_ok hok
  exact h.insert (ofToml_ne_field hv)

theorem Built.addFunction {source : String} (h : Built decls made scope s c)
    (hok : Manifest.addFunction scope name source = .ok scope') : Built decls made scope' s c := by
  obtain ⟨f, rfl⟩ := addFunction_ok hok
  exact h.insert fun f => nofun

theorem Built.foldlM_lift {α : Type} {g : Scope → α → Except ManifestError Scope}
    (hg : ∀ scope a scope' s c, Built decls made scope s c → g scope a = .ok scope' →
      Built decls made scope' s c) (xs : List α)
    (h : Built decls made scope s c)
    (hok : xs.foldlM (fun scope a => (liftM (g scope a) : StateT Session (Except ManifestError) Scope)) scope s = .ok (scope', s')) :
    ∃ c', xs.foldlM (fun scope a => (liftM (g scope a) : StateT IdCounter
      (Except ManifestError) Scope)) scope c = .ok (scope', c')
      ∧ Built decls made scope' s' c' := by
  refine foldlM_follows (R := fun _ scope s c => Built decls made scope s c) ?_ xs (d := []) h hok
  intro done b a s t b' s' hb hstep
  obtain ⟨ha, rfl⟩ := lift_ok hstep
  exact ⟨t, by rw [ha]; rfl, hg _ _ _ _ _ hb ha⟩

theorem Built.readWords (h : Built decls made scope s c) {x : FieldInfo × List UInt32}
    (hx : x ∈ made) : ∃ s', Session.readWords x.1 s = .ok x.2 s' := by
  obtain ⟨i, hi, rfl⟩ := mem_iff_getElem.1 hx
  have hid : (made[i]).1.id = i := by
    have hids := congrArg (·[i]?) h.ids
    simpa [hi] using hids
  have hwords : FieldMap.words? { fields := made } (made[i]).1 = some (made[i]).2 := by
    simp [FieldMap.words?, hid, hi]
  obtain ⟨words, s', hrun, hsame, -⟩ := h.books.readWords_ok (by rw [hwords]; rfl)
  rw [hwords] at hsame
  exact ⟨s', Option.some.inj hsame ▸ hrun⟩

open Built in
/-- What a manifest describes is what a new session holds after the build. -/
theorem deployed_of_build {m : Manifest} {settings : Settings} {clock : Nat}
    (h : m.build Session.registry { settings, clock } = .ok (scope, s)) : Deployed m scope s := by
  obtain ⟨scope1, s1, h1, k1⟩ := stateT_bind_ok h
  obtain ⟨scope2, s2, h2, k2⟩ := stateT_bind_ok k1
  obtain ⟨scope3, s3, h3, k3⟩ := stateT_bind_ok k2
  have b0 : Built [] [] {} { settings, clock } {} := ⟨Books.start settings clock, rfl, .nil, rfl, nofun⟩
  obtain ⟨c1, g1, b1⟩ := b0.foldlM_lift
    (fun _ _ _ _ _ => addConstant) _ h1
  obtain ⟨c2, g2, made, b2⟩ := b1.fields _ h2
  obtain ⟨c3, g3, b3⟩ := b2.textures _ h3
  obtain ⟨c4, g4, b4⟩ := b3.foldlM_lift
    (fun _ _ _ _ _ => addFunction) _ k3
  exact ⟨⟨c4, stateT_bind_of g1 (stateT_bind_of g2 (stateT_bind_of g3 g4))⟩, made, b4.contents,
    b4.ids, fun _ _ => b4.bound, fun _ => b4.readWords⟩

def pondManifest : Manifest where
  constants := [("depth", .integer 3), ("waves", .array [.integer 1, .integer 2])]
  fields := [("depth", { shape := [2, 3], elem := some "vec2f", members := [], init := some ⟨0x3FF8000000000000⟩ }),
    ("fish", { shape := [4], elem := none, members := ["at: vec2f", "age: i32"], init := some ⟨0x4000000000000000⟩ })]
  textures := [("waves", { dims := [8, 8], format := "rgba8unorm", storage := true })]
  functions := [("depth", "(a) => a * 2")]

theorem deployed_pond :
    ∃ scope s, pondManifest.build Session.registry { settings := {}, clock := 0 } = .ok (scope, s)
    ∧ Deployed pondManifest scope s := by
  have hrun : (pondManifest.build Session.registry { settings := {}, clock := 0 }).isOk = true := by decide +kernel
  cases hbuild : pondManifest.build Session.registry { settings := {}, clock := 0 } with
  | error e =>
    rw [hbuild] at hrun
    cases hrun
  | ok x => exact ⟨x.1, x.2, rfl, deployed_of_build hbuild⟩

end ArrayKernel
