import ArrayKernel.Proofs.Lowering.Access

/-!
# Parts of values

Members, swizzles, indices and array literals. A constant vector or matrix that is selected from a
well-formed one, or put together from constants, is well formed.
-/

namespace ArrayKernel.Lowering

open IR Surface List Option

variable {H : Host} {C : Ctx} {b : Builder} {e : Env} {α : Type} {name : String} {picks : List Nat}
  {ty : Ty} {s : Scalar} {o : Operand} {vs : List Literal} {base : Lowered} {span : Span}
  {v : Value} {is : List Operand} {xs : List α} {id : α → Nat} {n : Nat} {x : α}

/-! ## 1. Swizzles -/

theorem mapM_eq_some {β : Type} {f : α → Option β} {ys : List β} (h : xs.mapM f = some ys) :
    ys.length = xs.length ∧ ∀ y ∈ ys, ∃ x ∈ xs, f x = some y := by
  induction xs generalizing ys with
  | nil =>
    cases h
    exact ⟨rfl, nofun⟩
  | cons x xs ih =>
    simp only [mapM_cons, Option.bind_eq_bind, Option.bind_eq_some_iff, Option.pure_def, Option.some.injEq] at h
    obtain ⟨z, hz, zs, hzs, rfl⟩ := h
    obtain ⟨hlen, hmem⟩ := ih hzs
    refine ⟨by rw [length_cons, length_cons, hlen], fun y hy => ?_⟩
    rcases mem_cons.1 hy with rfl | hy
    · exact ⟨x, mem_cons_self .., hz⟩
    · obtain ⟨w, hw, hwy⟩ := hmem y hy
      exact ⟨w, mem_cons_of_mem _ hw, hwy⟩

theorem swizzle?_eq_some {width : Nat} (h : swizzle? name width = some picks) :
    1 ≤ picks.length ∧ picks.length ≤ 4 ∧ ∀ i ∈ picks, i < width := by
  unfold swizzle? at h
  simp only at h
  split at h
  · cases h
  · rename_i hlen
    simp only [Bool.or_eq_true, List.isEmpty_iff, decide_eq_true_eq, not_or] at hlen
    obtain ⟨hl, hmem⟩ := mapM_eq_some h
    have hpos := List.length_pos_iff.2 hlen.1
    refine ⟨by omega, by omega, fun i hi => ?_⟩
    obtain ⟨c, -, hc⟩ := hmem i hi
    simpa using (filter_eq_some_iff.1 hc).2

theorem vectorOrScalar_not_struct : (vectorOrScalar s n).isStruct = false := by
  unfold vectorOrScalar
  cases Dim.ofNat? n <;> rfl

theorem vectorOrScalar_eq (h2 : 2 ≤ n) (h4 : n ≤ 4) (s : Scalar) :
    ∃ d : Dim, vectorOrScalar s n = .vector s d ∧ d.toNat = n := by
  obtain rfl | rfl | rfl : n = 2 ∨ n = 3 ∨ n = 4 := by omega
  · exact ⟨.two, rfl, rfl⟩
  · exact ⟨.three, rfl, rfl⟩
  · exact ⟨.four, rfl, rfl⟩

theorem runs_composed {parts : List Operand} (hp : ∀ p ∈ parts, Holds H (C.env b) p (.scalar s))
    (hs : ty.scalar? = some s) (hl : parts.length = ty.size) :
    Runs H C b (emitValue (.compose parts ty) >>= fun x => pure (Lowered.value x ty)) fun e l => LoweredOk H e l := by
  have hn : ty.isStruct = false := by
    cases ty with
    | struct ms => cases hs
    | _ => rfl
  have hop : OpOk H (C.env b) C.ret (.compose parts ty) :=
    OpOk.compose hp _ (fun _ => hs) (fun _ => hn) fun _ => hl
  exact (Runs.emitValue hop rfl fun _ => hn).bind fun x b' _ hx => Runs.pure hx

theorem runs_swizzleValue {n : Dim}
    (ho : Holds H (C.env b) o (.vector s n)) (h1 : 1 ≤ picks.length) (h4 : picks.length ≤ 4) :
    Runs H C b (swizzleValue o (.vector s n) s picks) fun e l => LoweredOk H e l := by
  refine (Runs.mapAll (R := fun e x => Holds H e x (.scalar s)) (fun he h => h.mono he)
    fun i _ b' hb => ?_).bind fun parts b1 _ hparts => ?_
  · refine (runs_extract .component (ho.mono hb) fun x hx => ?_).bind fun x b'' _ hx => Runs.pure hx.2
    rw [mem_singleton.1 hx]
    exact .int _ _
  · obtain ⟨hlen, hparts⟩ := hparts
    split
    · exact .pure (hparts _ (mem_singleton_self _))
    · rename_i hne
      have h2 : 2 ≤ parts.length := by
        match parts, hne, hlen with
        | [], _, hlen => simp at hlen; omega
        | [p], hne, _ => exact absurd rfl (hne p)
        | _ :: _ :: _, _, _ => simp
      obtain ⟨d, hd, hn⟩ := vectorOrScalar_eq h2 (hlen ▸ h4) s
      simp only [hd]
      exact runs_composed hparts rfl hn.symm

theorem arrayOk_picked {n : Dim} (hv : ArrayOk vs (.vector s n))
    (hpicks : 1 ≤ picks.length ∧ picks.length ≤ 4 ∧ ∀ i ∈ picks, i < n.toNat)
    (hne : ∀ v, picks.filterMap (vs[·]?) = [v] → False) :
    ArrayOk (picks.filterMap (vs[·]?)) (vectorOrScalar s (picks.filterMap (vs[·]?)).length) := by
  obtain ⟨hlen, ⟨s', hs, hall⟩, -⟩ := hv
  obtain ⟨h1, h4, hlt⟩ := hpicks
  generalize hw : picks.filterMap (vs[·]?) = ws at hne ⊢
  have hlength : ws.length = picks.length := by
    rw [← hw, filterMap_length_eq_length]
    intro i hi
    rw [getElem?_eq_getElem (by rw [hlen]; exact hlt i hi)]
    rfl
  have h2 : 2 ≤ ws.length := by
    match ws, hne, hlength with
    | [], _, h => simp at h; omega
    | [v], hne, _ => exact absurd rfl (hne v)
    | _ :: _ :: _, _, _ => simp
  obtain ⟨d, hd, hn⟩ := vectorOrScalar_eq h2 (by omega) s
  rw [hd]
  refine ⟨hn.symm, ⟨s, rfl, fun l hl => ?_⟩, rfl⟩
  rw [← hw] at hl
  obtain ⟨i, -, hi⟩ := mem_filterMap.1 hl
  cases hs
  exact hall l (mem_of_getElem? hi)

/-! ## 2. Members -/

theorem runs_member (hb : LoweredOk H (C.env b) base) :
    Runs H C b (member base name span) fun e l => LoweredOk H e l := by
  unfold member
  split
  · rename_i r
    split
    · rename_i v hv
      exact (runs_ofValue_settled (RecordOk.get? hb hv)).imp fun _ _ _ h => h.loweredOk
    · exact .fail
  · rename_i es
    split
    · rename_i l hl
      exact Runs.pure (EntriesOk.get? hb hl).loweredOk
    · exact .fail
  · rename_i vs s n
    have hv : ValueOk H (C.env b).settled (.array vs (.vector s n)) := hb
    split
    · exact .fail
    · rename_i picks hpicks
      split
      · exact .pure trivial
      · rename_i hne
        refine .pure ⟨fun _ => vectorOrScalar_not_struct, fun h => ?_⟩
        exact arrayOk_picked (hv.2 h) (swizzle?_eq_some hpicks) hne
  · rename_i p
    have hp : PlaceOk H (C.env b) p := hb
    split
    · exact (runs_memberPlace hp).bind fun q b' _ hq => .pure (hq.1.mono Env.settled_le)
    · rename_i s n hty
      split
      · exact .fail
      · refine (runs_subPlace hp fun x hx => ?_).bind fun q b' _ hq => .pure hq
        rw [mem_singleton.1 hx]
        exact .int _ _
      · rename_i picks _ hpicks
        obtain ⟨h1, h4, -⟩ := swizzle?_eq_some hpicks
        refine (runs_load hp).bind fun x b' _ hx => ?_
        obtain ⟨o, ty⟩ := x
        obtain ⟨ho, rfl⟩ : Holds H (C.env b') o ty ∧ ty = .vector s n := ⟨hx.1, hx.2.trans hty⟩
        exact runs_swizzleValue ho h1 h4
    · exact .fail
  · rename_i o s n
    split
    · exact .fail
    · rename_i picks hpicks
      obtain ⟨h1, h4, -⟩ := swizzle?_eq_some hpicks
      exact runs_swizzleValue hb h1 h4
  · exact .fail
  · exact .fail

/-! ## 3. Indices -/

theorem runs_indexOperands {l : Lowered} (hl : LoweredOk H (C.env b) l) :
    Runs H C b (indexOperands l span) fun e xs => ∀ x ∈ xs, Holds H e x .i32 := by
  have hone : Runs H C b (intOperand l span >>= fun x => pure [x]) fun e xs => ∀ x ∈ xs, Holds H e x .i32 :=
    (runs_intOperand hl).bind fun x b' _ hx => Runs.pure (by simpa using hx)
  have hspread : ∀ {s : Scalar} {n : Dim},
      Runs H C b (rvalue l span) (fun e x => Holds H e x.1 x.2 ∧ x.2 = .vector s n) →
      Runs H C b (do
        let x ← rvalue l span
        (← components x.1 x.2).mapM fun part => intOperand (.value part (.scalar s)) span)
        fun e xs => ∀ x ∈ xs, Holds H e x .i32 := by
    intro s n hval
    refine hval.bind fun x b1 _ hx => ?_
    obtain ⟨o, ty⟩ := x
    obtain ⟨ho, rfl⟩ : Holds H (C.env b1) o ty ∧ ty = .vector s n := hx
    refine (runs_components ho).bind fun parts b2 _ hparts => ?_
    refine (Runs.mapAll (fun he h => h.mono he) fun part hpart b3 h3 => ?_).imp fun _ _ _ h => h.2
    exact runs_intOperand ((hparts.2 part hpart).mono h3)
  unfold indexOperands
  split
  · exact (Runs.mapAll (fun he h => h.mono he) fun v _ b' _ => runs_intOperand
      (l := .static (.number v)) trivial).imp fun _ _ _ h => h.2
  · exact hspread (Runs.pure ⟨hl, rfl⟩)
  · split
    · rename_i s n hty
      exact hspread ((runs_load hl).imp fun _ _ _ hx => ⟨hx.1, hx.2.trans hty⟩)
    · exact hone
  · exact hone

theorem valueOk_staticIndex? {is : List Int}
    (hv : ValueOk H e (.array vs ty)) (h : staticIndex? vs ty is = some v) : ValueOk H e v := by
  unfold staticIndex? at h
  split at h
  · obtain ⟨l, -, rfl⟩ := map_eq_some_iff.1 h
    trivial
  · rename_i r c i
    split at h
    · rename_i hi
      cases h
      refine ⟨fun _ => rfl, fun ht => ?_⟩
      obtain ⟨hlen, ⟨s, hs, hall⟩, -⟩ := hv.2 ht
      cases hs
      refine ⟨?_, ⟨.f32, rfl, fun l hl => hall l (mem_of_mem_drop (mem_of_mem_take hl))⟩, rfl⟩
      rw [length_take, length_drop, hlen]
      show min c.toNat (r.toNat * c.toNat - i.toNat * c.toNat) = c.toNat
      have hlt : i.toNat + 1 ≤ r.toNat := by omega
      have hmul := Nat.mul_le_mul_right c.toNat hlt
      rw [Nat.succ_mul] at hmul
      omega
    · cases h
  · split at h
    · obtain ⟨l, -, rfl⟩ := map_eq_some_iff.1 h
      trivial
    · cases h
  · cases h

theorem runs_indexValue (ho : Holds H (C.env b) o ty) (hi : ∀ x ∈ is, Holds H (C.env b) x .i32) :
    Runs H C b (indexValue o ty is span) fun e l => LoweredOk H e l := by
  have hselect : ∀ {out : Ty}, Selects ty is out →
      Runs H C b (extract o ty is >>= fun x => pure (.value x.1 x.2)) fun e l => LoweredOk H e l := by
    intro out hs
    refine (runs_extract hs ho hi).bind fun x b' _ hx => .pure ?_
    obtain ⟨rfl, hx⟩ := hx
    exact hx
  unfold indexValue
  split
  · exact hselect .component
  · exact hselect .row
  · exact hselect .entry
  · exact .fail

theorem mem_insertById {y : α} (h : y ∈ insertById id x xs) : y = x ∨ y ∈ xs := by
  induction xs with
  | nil => exact .inl (mem_singleton.1 h)
  | cons z xs ih =>
    unfold insertById at h
    split at h
    · exact mem_cons.1 h
    · split at h
      · exact .inr h
      · rcases mem_cons.1 h with rfl | h
        · exact .inr (mem_cons_self ..)
        · exact (ih h).imp_right (mem_cons_of_mem _)

theorem subset_insertById : xs ⊆ insertById id x xs := by
  induction xs with
  | nil => exact nil_subset _
  | cons z xs ih =>
    unfold insertById
    split
    · exact subset_cons_self _ _
    · split
      · exact .refl _
      · exact cons_subset_cons _ ih

theorem exists_mem_insertById : ∃ y ∈ insertById id x xs, id y = id x := by
  induction xs with
  | nil => exact ⟨x, mem_singleton_self x, rfl⟩
  | cons z xs ih =>
    unfold insertById
    split
    · exact ⟨x, mem_cons_self .., rfl⟩
    · split
      · exact ⟨z, mem_cons_self .., .symm ‹_›⟩
      · obtain ⟨y, hy, hid⟩ := ih
        exact ⟨y, mem_cons_of_mem _ hy, hid⟩

theorem runs_touchField {f : FieldInfo} (hf : H.field f) :
    Runs H C b (touchField f) fun e _ => e.Lists f.id := by
  refine .update (fun _ => ⟨rfl, rfl, rfl, rfl⟩) subset_insertById (fun g hg => ?_) ?_
  · exact (mem_insertById hg).elim (fun h => .inr (h ▸ hf)) .inl
  · exact exists_mem_insertById

theorem runs_index (hb : LoweredOk H (C.env b) base) (hi : ∀ x ∈ is, Holds H (C.env b) x .i32) :
    Runs H C b (index base is span) fun e l => LoweredOk H e l := by
  unfold index
  split
  · rename_i f
    have hf : H.field f := hb
    split
    · exact .fail
    · rename_i hlen
      refine (runs_touchField hf).bind fun _ b' h hlists => .pure ?_
      refine ⟨⟨hf, hlists⟩, fun x hx => ((hi x hx).mono h).anywhere, .int _ _, fun _ => ⟨_, rfl⟩, fun _ => ⟨?_, .whole⟩⟩
      exact Decidable.not_not.1 hlen
  · exact (runs_subPlace hb hi).bind fun q b' _ hq => .pure hq
  · rename_i vs ty
    have hv : ValueOk H (C.env b).settled (.array vs ty) := hb
    split
    · split
      · rename_i v hsel
        exact .pure (valueOk_staticIndex? hv hsel)
      · exact .fail
    · refine (runs_rvalue hb).bind fun x b' h hx => ?_
      exact runs_indexValue hx fun y hy => (hi y hy).mono h
  · exact runs_indexValue hb hi
  · exact .fail
  · exact .fail

/-! ## 4. Array literals -/

theorem length_flatten_const {xss : List (List α)} (h : ∀ xs ∈ xss, xs.length = n) :
    xss.flatten.length = xss.length * n := by
  induction xss with
  | nil => simp
  | cons xs xss ih =>
    rw [flatten_cons, length_append, h xs (mem_cons_self ..),
      ih fun ys hys => h ys (mem_cons_of_mem _ hys), length_cons, Nat.succ_mul, Nat.add_comm]

theorem valueOk_staticArray? {items : List Value} (hi : ∀ w ∈ items, ValueOk H e w)
    (h : staticArray? items = .ok (some v)) : ValueOk H e v := by
  unfold staticArray? at h
  simp only at h
  split at h
  · rename_i l ls _
    obtain ⟨ty, hty, h⟩ := except_bind_ok h
    cases h
    obtain ⟨d, rfl, hd⟩ := Ty.ofVector_eq hty
    refine ⟨fun _ => rfl, fun _ => ⟨?_, ⟨_, rfl, fun m hm => ?_⟩, rfl⟩⟩
    · rw [length_map]
      exact hd.symm
    · obtain ⟨k, -, rfl⟩ := mem_map.1 hm
      exact Literal.scalar_cast _ _
  · rename_i row n rows hrows _
    split at h
    · rename_i hall
      obtain ⟨ty, hty, h⟩ := except_bind_ok h
      cases h
      obtain ⟨r, c, rfl, hr, hc⟩ := Ty.ofMatrix_eq hty
      refine ⟨fun _ => rfl, fun ht => ⟨?_, ⟨.f32, rfl, fun m hm => ?_⟩, rfl⟩⟩
      · have hwidth : ∀ xs ∈ ((row, n) :: rows).map Prod.fst, xs.length = n.toNat := by
          intro xs hxs
          obtain ⟨q, hq, rfl⟩ := mem_map.1 hxs
          have hn : q.2 = n := by
            rcases mem_cons.1 hq with rfl | hq
            · rfl
            · simpa using all_eq_true.1 hall q hq
          obtain ⟨w, hw, hrow⟩ := (mapM_eq_some hrows).2 q hq
          split at hrow
          · cases hrow
            rw [← hn]
            exact ((hi _ hw).2 ht).length
          · cases hrow
        rw [length_map, flatMap_def, length_flatten_const hwidth]
        show _ = r.toNat * c.toNat
        rw [hr, hc, length_map, length_cons]
      · obtain ⟨k, -, rfl⟩ := mem_map.1 hm
        exact Literal.scalar_cast _ _
    · cases h
  · cases h

theorem foldlM_broadcast_scalar {ts : List Ty} {t : Ty} (hts : ∀ u ∈ ts, u.isScalar)
    (h : ts.foldlM Ty.broadcast (.scalar s) = .ok t) : ∃ s', t = .scalar s' := by
  induction ts generalizing s with
  | nil =>
    cases h
    exact ⟨s, rfl⟩
  | cons u ts ih =>
    obtain ⟨s', rfl⟩ := Ty.isScalar_iff.1 (hts u (mem_cons_self ..))
    exact ih (fun v hv => hts v (mem_cons_of_mem _ hv)) h

theorem runs_arrayOf {items : List Arg} (hi : ∀ a ∈ items, LoweredOk H (C.env b) a.lowered) :
    Runs H C b (arrayOf items span) fun e l => LoweredOk H e l := by
  unfold arrayOf
  extract_lets jp
  -- what follows the attempt to make a constant
  have hjp : ∀ r : Option Value, (∀ v, r = some v → ValueOk H (C.env b).settled v) →
      Runs H C b (jp r) fun e l => LoweredOk H e l := by
    intro r hr
    cases r with
    | some v => exact Runs.pure (hr v rfl)
    | none =>
      refine (Runs.mapAll (fun he h => h.mono he)
        fun a ha b' h => runs_rvalue ((hi a ha).mono h)).bind fun values b1 _ hvalues => ?_
      obtain ⟨-, hvalues⟩ := hvalues
      split
      · exact Runs.fail
      · rename_i o s rest
        refine Runs.typed fun elem helem => Runs.typed fun ty hty => ?_
        refine (Runs.mapM (R := fun e (x : TypedOperand) y => Holds H e y elem ∧ x.2.isScalar)
          (fun he h => ⟨h.1.mono he, h.2⟩) fun x hx b2 h2 => ?_).bind fun parts b3 _ hparts => ?_
        · obtain ⟨o, t⟩ := x
          simp only
          split
          · exact (runs_coerce ((hvalues _ hx).mono h2)).imp fun _ _ _ h => ⟨h, ‹_›⟩
          · exact Runs.fail
        · have hscalar : ∀ u ∈ rest.map Prod.snd, u.isScalar := by
            intro u hu
            obtain ⟨x, hx, rfl⟩ := mem_map.1 hu
            obtain ⟨y, -, hy⟩ := forall₂_mem_right hparts.flip x (mem_cons_of_mem _ hx)
            exact hy.2
          obtain ⟨s', rfl⟩ := foldlM_broadcast_scalar hscalar helem
          obtain ⟨d, rfl, hd⟩ := Ty.ofVector_eq hty
          refine runs_composed (fun p hp => ?_) rfl (hparts.length_eq.symm.trans hd.symm)
          obtain ⟨x, -, hx⟩ := forall₂_mem_right hparts p hp
          exact hx.1
      · rename_i o s n rest
        refine Runs.typed fun ty hty => ?_
        obtain ⟨r, c, rfl, hr, hc⟩ := Ty.ofMatrix_eq hty
        refine (Runs.mapAll (R := fun e (xs : List Operand) => xs.length = n.toNat ∧ ∀ x ∈ xs, Holds H e x .f32)
          (fun he h => ⟨h.1, fun x hx => (h.2 x hx).mono he⟩) fun x hx b2 h2 => ?_).bind fun rows b3 _ hrows => ?_
        · obtain ⟨o, t⟩ := x
          simp only
          split
          · refine (runs_coerce ((hvalues _ hx).mono h2)).bind fun y b3 _ hy => ?_
            exact (runs_components hy).imp fun _ _ _ h => ⟨h.1 rfl, h.2⟩
          · exact Runs.fail
        · obtain ⟨hlen, hrows⟩ := hrows
          refine runs_composed (fun p hp => ?_) rfl ?_
          · obtain ⟨row, hrow, hp⟩ := mem_flatten.1 hp
            exact (hrows row hrow).2 p hp
          · rw [length_flatten_const fun row hrow => (hrows row hrow).1, hlen]
            show _ = r.toNat * c.toNat
            rw [hr, hc]
      · exact Runs.fail
  split
  · rename_i vs hvs
    refine Runs.typed fun r hr => hjp r fun v hv => ?_
    subst hv
    refine valueOk_staticArray? (fun w hw => ?_) hr
    obtain ⟨a, ha, hstatic⟩ := (mapM_eq_some hvs).2 w hw
    exact (hi a ha).static? hstatic
  · simp only [pure_bind]
    exact hjp none nofun

end ArrayKernel.Lowering
