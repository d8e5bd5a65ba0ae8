import ArrayKernel.Proofs.Lowering.Selection

/-!
# Built-in operations

Calls of the operations of the table.
-/

namespace ArrayKernel.Lowering

open IR Surface List

variable {H : Host} {C : Ctx} {b : Builder} {e : Env} {i : Intrinsic} {span : Span}
  {x : TypedOperand} {xs : List TypedOperand} {s : Scalar} {t : TextureInfo} {op : TextureOp}

/-! ## 1. Operations that are computed component by component -/

theorem component_eq_scalar {ty : Ty} (h : ty.isStruct = false) :
    ∃ s, ty.component = .scalar s := by
  cases ty with
  | struct ms => cases h
  | _ => exact ⟨_, rfl⟩

theorem runs_sumOf (hx : Holds H (C.env b) x.1 x.2) :
    Runs H C b (sumOf i x span) fun e l => LoweredOk H e l := by
  unfold sumOf
  extract_lets elem
  cases hstruct : x.2.isStruct with
  | true =>
    -- a structure has no components of its own
    obtain ⟨ms, hms⟩ := Ty.isStruct_iff.1 hstruct
    rw [hms]
    simp only [components]
    exact Runs.fail
  | false =>
    obtain ⟨s, hs⟩ : ∃ s, elem = .scalar s := component_eq_scalar hstruct
    have hadd : BinOp.add.typing (.scalar s) (.scalar s) = .ok ⟨.scalar s, .scalar s⟩ := by cases s <;> rfl
    refine (runs_components hx).bind fun parts b1 _ hparts => ?_
    have hparts : ∀ p ∈ parts, Holds H (C.env b1) p (.scalar s) := hs ▸ hparts.2
    cases parts with
    | nil => exact Runs.fail
    | cons first rest =>
      simp only [hs]
      refine (Runs.foldlM (R := fun e y => Holds H e y (.scalar s)) (fun part hpart acc b2 h2 hacc => ?_)
        (hparts first (mem_cons_self ..))).bind fun total b3 _ htotal => Runs.pure htotal
      exact runs_binary_scalar hadd hacc ((hparts part (mem_cons_of_mem _ hpart)).mono h2)

theorem runs_outerProduct {y : TypedOperand} (hx : Holds H (C.env b) x.1 x.2)
    (hy : Holds H (C.env b) y.1 y.2) :
    Runs H C b (outerProduct i x y span) fun e l => LoweredOk H e l := by
  unfold outerProduct
  split
  · rename_i n _ m hxt hyt
    refine .typed fun ty hty => ?_
    obtain ⟨r, c, rfl, hr, hc⟩ := Ty.ofMatrix_eq hty
    refine (runs_coerce hx).bind fun a b1 h1 ha => ?_
    refine (runs_coerce (hy.mono h1)).bind fun a' b2 h2 ha' => ?_
    refine (runs_components (ha.mono h2)).bind fun rows b3 h3 hrows => ?_
    refine (runs_components (ha'.mono h3)).bind fun cols b4 h4 hcols => ?_
    have hmul : BinOp.mul.typing .f32 .f32 = .ok ⟨.f32, .f32⟩ := rfl
    refine (Runs.flatMapM (n := cols.length) (R := fun e z => Holds H e z .f32)
      (fun he h => h.mono he) fun row hrow b5 h5 => ?_).bind fun parts b6 _ hparts => ?_
    · refine Runs.mapAll (fun he h => h.mono he) fun col hcol b6 h6 => ?_
      exact runs_binary_scalar hmul ((hrows.2 row hrow).mono (Env.le_trans h4 (Env.le_trans h5 h6)))
        ((hcols.2 col hcol).mono (Env.le_trans h5 h6))
    · refine runs_composed hparts.2 rfl ?_
      rw [hparts.1, hrows.1 rfl, hcols.1 rfl]
      show n.toNat * m.toNat = r.toNat * c.toNat
      rw [hr, hc]
  · exact .fail

theorem runs_concat (hxs : ∀ x ∈ xs, Holds H (C.env b) x.1 x.2) :
    Runs H C b (concat i xs span) fun e l => LoweredOk H e l := by
  refine (Runs.mapAll (fun _ _ => trivial) fun x _ b' _ => ?_).bind
    fun scalars b1 h1 _ => ?_
  · obtain ⟨o, ty⟩ := x
    simp only
    split
    · exact Runs.pure trivial
    · exact Runs.pure trivial
    · exact Runs.fail
  · extract_lets s
    refine (Runs.mapAll (R := fun e (ys : List Operand) => ∀ y ∈ ys, Holds H e y (.scalar s))
      (fun he h y hy => (h y hy).mono he) fun x hx b2 h2 => ?_).bind fun parts b3 _ hparts => ?_
    · obtain ⟨o, ty⟩ := x
      refine (runs_components ((hxs _ hx).mono (Env.le_trans h1 h2))).bind fun ps b3 _ hps => ?_
      refine (Runs.mapAll (fun he h => h.mono he) fun p hp b4 h4 => ?_).imp fun _ _ _ h => h.2
      exact runs_coerce ((hps.2 p hp).mono h4)
    · refine Runs.typed fun ty hty => ?_
      obtain ⟨d, rfl, hd⟩ := Ty.ofVector_eq hty
      refine runs_composed (fun p hp => ?_) rfl hd.symm
      obtain ⟨ps, hps, hp⟩ := mem_flatten.1 hp
      exact hparts.2 ps hps p hp

/-! ## 2. Conversions and calls -/

theorem runs_convert {op : UnaryOp}
    (hop : i.kind = .cast s ∧ op = .cast s ∨ i.kind = .bitcast s ∧ op = .bitcast s)
    (hx : Holds H (C.env b) x.1 x.2) :
    Runs H C b (convert i op x span) fun e l => LoweredOk H e l := by
  refine .typed fun sig hsig => ?_
  have hret : sig.ret = op.resultTy x.2 := by
    rcases hop with ⟨hk, rfl⟩ | ⟨hk, rfl⟩
    · exact Intrinsic.signature_convert (.inl hk) hsig
    · exact Intrinsic.signature_convert (.inr hk) hsig
  split
  · exact .pure hx
  · exact (runs_unaryOp hx hret (Intrinsic.signature_shape hsig).1.1).bind fun y b' _ hy => Runs.pure hy

theorem runs_callOf (hi : i ∈ Intrinsic.table) (hlen : xs.length = i.arity)
    (hxs : ∀ x ∈ xs, Holds H (C.env b) x.1 x.2) :
    Runs H C b (callOf i xs span) fun e l => LoweredOk H e l := by
  refine Runs.typed fun sig hsig => ?_
  obtain ⟨hret, hargs⟩ := (Intrinsic.signature_shape hsig).1
  have hsame : sig.args.length = xs.length := by
    rw [Intrinsic.signature_args_length hi (by rw [length_map, hlen]) hsig, length_map]
  refine (Runs.mapM (R := fun e (p : TypedOperand × Ty) y => Holds H e y p.2)
    (fun he h => h.mono he) fun p hp b' h => ?_).bind fun args b1 _ hcoerced => ?_
  · obtain ⟨⟨o, ty⟩, target⟩ := p
    exact runs_coerce ((hxs _ (of_mem_zip hp).1).mono h)
  · have hargsOk : Forall₂ (Holds H (C.env b1)) args sig.args := by
      have hzip : (xs.zip sig.args).map Prod.snd = sig.args := map_snd_zip (Nat.le_of_eq hsame)
      rw [← hzip]
      exact forall₂_map_right_iff.2 hcoerced.flip
    have hop : OpOk H (C.env b1) C.ret (.call i args sig.args sig.ret) := by
      refine OpOk.ofPlain ⟨rfl, rfl, rfl, nofun⟩ hi trivial (fun x hx => ?_) (fun _ => ?_) fun h => ?_
      · obtain ⟨ty, -, hty⟩ := forall₂_mem_right hargsOk.flip x hx
        exact hty.visible
      · intro ty hty
        rcases mem_cons.1 hty with rfl | hty
        · exact hret
        · exact hargs ty hty
      · exact hargsOk.imp fun _ _ ho => ho.hasTy h
    exact (Runs.emitValue hop rfl fun _ => hret).bind fun x b2 _ hx => Runs.pure hx

theorem runs_mathOf (hi : i ∈ Intrinsic.table) (hlen : xs.length = i.arity)
    (hxs : ∀ x ∈ xs, Holds H (C.env b) x.1 x.2) :
    Runs H C b (mathOf i xs span) fun e l => LoweredOk H e l := by
  unfold mathOf
  split
  · refine (runs_binary (hxs _ (by simp)) (hxs _ (by simp))).bind fun x b' _ hx => Runs.pure hx.1
  · exact runs_sumOf (hxs _ (by simp))
  · exact runs_outerProduct (hxs _ (by simp)) (hxs _ (by simp))
  · exact runs_concat hxs
  · rename_i hk
    exact runs_convert (.inl ⟨hk, rfl⟩) (hxs _ (by simp))
  · rename_i hk
    exact runs_convert (.inr ⟨hk, rfl⟩) (hxs _ (by simp))
  · exact runs_callOf hi hlen hxs

/-! ## 3. Textures -/

theorem runs_touchTexture : Runs H C b (touchTexture t) fun _ _ => True :=
  Runs.update (fun _ => ⟨rfl, rfl, rfl, rfl⟩) (.refl _) (fun _ => .inl) trivial

theorem runs_texel {c : Operand} {stored : Option Operand} {coordTy : Ty} (ht : H.texture t)
    (hstorage : t.storage = (op == .store)) (hty : op.coordTy? t.rank = some coordTy)
    (hc : Holds H (C.env b) c coordTy) (hsome : stored.isSome = (op == .store))
    (hstored : ∀ v ∈ stored, Holds H (C.env b) v texelTy) : Runs H C b (do
      touchTexture t
      let id ← emit (.texture t.id op c stored texelTy)
      return if op = .store then Lowered.void else .value (.stmt id) texelTy) fun e l => LoweredOk H e l := by
  refine runs_touchTexture.bind fun _ b1 h1 _ => ?_
  have hop : OpOk H (C.env b1) C.ret (.texture t.id op c stored texelTy) := by
    refine OpOk.ofPlain ⟨rfl, rfl, rfl, nofun⟩ ⟨t, ht, rfl⟩ trivial (fun x hx => ?_) (fun _ => ?_) fun h => ?_
    · rcases mem_cons.1 hx with rfl | hx
      · exact (hc.mono h1).visible
      · exact ((hstored x (Option.mem_toList.1 hx)).mono h1).visible
    · simp [Op.types, Ty.isStruct]
    · exact ⟨t, ht, rfl, hstorage, ⟨coordTy, hty, (hc.mono h1).hasTy h⟩, hsome,
        fun v hv => ((hstored v hv).mono h1).hasTy h, rfl⟩
  refine (Runs.emit hop).bind fun id b2 _ hid => Runs.pure ?_
  split
  · trivial
  · rename_i hstore
    exact Holds.stmt hid (by simp [Def.ty?, Op.resultTy?, hstore]) fun _ => rfl

theorem runs_textureAccess {tex coords : Arg} {value : Option Arg}
    (hs : s = if op = .sample then .f32 else .i32) (hvalue : value.isSome = (op == .store))
    (htex : LoweredOk H (C.env b) tex.lowered) (hcoords : LoweredOk H (C.env b) coords.lowered)
    (hv : ∀ v ∈ value, LoweredOk H (C.env b) v.lowered) :
    Runs H C b (textureAccess i op s tex coords value) fun e l => LoweredOk H e l := by
  unfold textureAccess
  split
  · rename_i t ht
    rw [ht] at htex
    have ht : H.texture t := htex
    split
    · exact .fail
    · rename_i hstorage
      have hstorage : t.storage = (op == .store) := Decidable.not_not.1 hstorage
      extract_lets texel jp
      have hjp : ∀ coordTy, op.coordTy? t.rank = some coordTy → Runs H C b (jp coordTy) fun e l => LoweredOk H e l := by
        intro coordTy hty
        refine (runs_rvalue hcoords).bind fun x b1 h1 hx => ?_
        refine (runs_coerce hx).bind fun c b2 h2 hc => ?_
        cases value with
        | none => exact runs_texel ht hstorage hty hc hvalue nofun
        | some v =>
          refine (runs_rvalue ((hv v rfl).mono (Env.le_trans h1 h2))).bind fun y b3 h3 hy => ?_
          refine (runs_coerce hy).bind fun o b4 h4 ho => ?_
          refine runs_texel ht hstorage hty (hc.mono (Env.le_trans h3 h4)) hvalue fun w hw => ?_
          cases hw
          exact ho
      split
      · rename_i hrank
        exact hjp _ (by simp [TextureOp.coordTy?, hrank, hs])
      · rename_i hrank
        refine .typed fun ty hty => hjp ty ?_
        rw [TextureOp.coordTy?, if_neg hrank, ← hs, hty]
        rfl
  · exact .fail

/-! ## 4. All of them -/

theorem textureOp?_eq_some (hi : i ∈ Intrinsic.table) (h : textureOp? i.kind = some (op, s)) :
    s = (if op = .sample then .f32 else .i32) ∧ i.arity = if op = .store then 3 else 2 := by
  have htable : ∀ j ∈ Intrinsic.table, ∀ p ∈ textureOp? j.kind,
      p.2 = (if p.1 = .sample then .f32 else .i32) ∧ j.arity = if p.1 = .store then 3 else 2 := by decide
  exact htable i hi (op, s) h

theorem runs_builtin {args : List Arg} (hi : i ∈ Intrinsic.table)
    (hargs : ∀ a ∈ args, LoweredOk H (C.env b) a.lowered) :
    Runs H C b (builtin i args span) fun e l => LoweredOk H e l := by
  unfold builtin
  split
  · exact Runs.fail
  · rename_i harity
    replace harity : args.length = i.arity := Decidable.not_not.1 harity
    split
    · rename_i a _
      split
      · rename_i v hv
        exact Runs.pure ((hargs a (by simp)).static? hv)
      · exact Runs.fail
    · rename_i kind target value _
      split
      · rename_i p hp
        have htarget := hargs target (by simp)
        rw [hp] at htarget
        exact (runs_atomic htarget (hargs value (by simp))).bind fun x b' _ hx => Runs.pure hx
      · exact Runs.fail
    · have hop : OpOk H (C.env b) C.ret (.random .f32) :=
        OpOk.ofPlain ⟨rfl, rfl, rfl, nofun⟩ trivial trivial nofun (by simp [Op.types, Ty.isStruct]) fun _ => trivial
      exact (Runs.emitValue hop rfl fun _ => rfl).bind fun x b' _ hx => Runs.pure hx
    · split
      · rename_i op s tex coords rest hop _ _
        obtain ⟨hs, hn⟩ := textureOp?_eq_some hi hop
        refine runs_textureAccess hs ?_ (hargs tex (by simp)) (hargs coords (by simp)) fun v hv => hargs v ?_
        · rw [hn] at harity
          cases op <;> cases rest <;> simp at harity ⊢
        · exact mem_cons_of_mem _ (mem_cons_of_mem _ (mem_of_head? hv))
      · refine (Runs.mapAll (fun he h => h.mono he)
          fun a ha b' h => runs_rvalue ((hargs a ha).mono h)).bind fun xs b1 _ hxs => ?_
        exact runs_mathOf hi (hxs.1.trans harity) hxs.2

end ArrayKernel.Lowering
