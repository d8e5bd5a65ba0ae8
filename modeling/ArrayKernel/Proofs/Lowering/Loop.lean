import ArrayKernel.Proofs.Lowering.Expr

/-!
# Loops

The variables of a loop, its bounds, and the loops that run in one thread. The variables of an
unrolled loop are settled, since they are constants; those of a loop on the device stand for its
index.
-/

namespace ArrayKernel.Lowering

open IR Surface List IR.Stmt

variable {H : Host} {C : Ctx} {b : Builder} {e : Env} {dims parts : List Operand}
  {binding : Binding} {scope : Scope} {span : Span} {flat : Operand} {is : List Int}

/-! ## 1. Variables of loops -/

theorem valueOk_indexValueOf {o : Operand} (ho : Holds H e o .i32) :
    ValueOk H e (indexValueOf o) := by
  cases o with
  | const l => trivial
  | stmt i => exact ho

theorem scopeAdds_zip {ns : List Name} (hp : ∀ p ∈ parts, Holds H e p .i32) (scope : Scope) :
    ScopeAdds H e scope ((ns.zip parts).foldl (fun s (n, p) => s.insert n.text (indexValueOf p)) scope) := by
  induction ns generalizing parts scope with
  | nil => exact .refl _ _
  | cons n ns ih =>
    cases parts with
    | nil => exact .refl _ _
    | cons p parts =>
      have hv := valueOk_indexValueOf (hp p (mem_cons_self ..))
      exact (ScopeAdds.insert hv n.text).trans (ih (fun q hq => hp q (mem_cons_of_mem _ hq)) _) (Env.le_refl _)

theorem valueOk_constIndex {ls : List Literal} {ty : Ty} (hp : ∀ p ∈ parts, Holds H e p .i32)
    (hls : parts.mapM Operand.const? = some ls) (hty : Ty.ofVector .i32 parts.length = .ok ty) :
    ValueOk H e (.array ls ty) := by
  obtain ⟨d, rfl, hd⟩ := Ty.ofVector_eq hty
  obtain ⟨hlen, hmem⟩ := mapM_eq_some hls
  refine ⟨fun _ => rfl, fun h => ⟨hlen.trans hd.symm, ⟨.i32, rfl, fun l hl => ?_⟩, rfl⟩⟩
  obtain ⟨o, ho, hconst⟩ := hmem l hl
  cases o with
  | stmt i => cases hconst
  | const l' =>
    cases hconst
    exact Ty.scalar.inj ((hp _ ho).const_ty h)

theorem runs_bindIndex (hp : ∀ p ∈ parts, Holds H (C.env b) p .i32) :
    Runs H C b (bindIndex binding parts scope span) fun e s => ScopeAdds H e scope s := by
  unfold bindIndex
  split
  · split
    · exact Runs.pure (.insert (valueOk_indexValueOf (hp _ (by simp))) _)
    · refine Runs.typed fun ty hty => ?_
      split
      · rename_i ls hls
        exact Runs.pure (.insert (valueOk_constIndex hp hls hty) _)
      · obtain ⟨d, rfl, hd⟩ := Ty.ofVector_eq hty
        have hop : OpOk H (C.env b) C.ret (.compose parts (.vector .i32 d)) :=
          OpOk.compose hp _ (fun _ => rfl) (fun _ => rfl) fun _ => hd.symm
        refine (Runs.emitValue hop rfl fun _ => rfl).bind fun x b' _ hx => Runs.pure ?_
        exact ScopeAdds.insert (v := .bound x (.vector .i32 d)) hx _
  · split
    · exact Runs.fail
    · exact Runs.pure (scopeAdds_zip hp _)

theorem mapM_const?_int :
    (is.map Operand.int).mapM Operand.const? = some (is.map fun v => .i32 (.ofInt v)) := by
  induction is with
  | nil => rfl
  | cons v is ih => rw [map_cons, mapM_cons, ih]; rfl

theorem runs_bindIndex_const :
    Runs H C b (bindIndex binding (is.map .int) scope span) fun e s => ScopeAdds H e.settled scope s := by
  have hp : ∀ p ∈ is.map Operand.int, Holds H (C.env b).settled p .i32 := by
    intro p hp
    obtain ⟨v, -, rfl⟩ := mem_map.1 hp
    exact .int _ v
  unfold bindIndex
  split
  · split
    · rename_i p hsingle
      exact .pure (.insert (valueOk_indexValueOf (hp p (by rw [hsingle]; simp))) _)
    · refine .typed fun ty hty => ?_
      split
      · rename_i ls hls
        exact .pure (.insert (valueOk_constIndex hp hls hty) _)
      · rename_i hnone
        rw [mapM_const?_int] at hnone
        cases hnone
  · split
    · exact .fail
    · exact .pure (scopeAdds_zip hp _)

/-! ## 2. Spaces and bounds -/

theorem runs_spaceOf {path : String} {args : List Expr} {m : Lower Space}
    (h : Iteration.spaceOf path args span = some m) : Runs H C b m fun _ _ => True := by
  have hwithin : ∀ {name : String} {most expected : Nat} {space : Space},
      Runs H C b (if args.isEmpty || most < args.length then failAt span
        (.arityMismatch name expected args.length) else pure space) fun _ _ => True := by
    intro name most expected space
    split
    · exact .fail
    · exact .pure trivial
  unfold Iteration.spaceOf at h
  split at h <;> cases h <;> exact hwithin

theorem runs_iteration {x : Expr} : Runs H C b (Iteration.ofExpr x) fun _ _ => True := by
  unfold Iteration.ofExpr
  extract_lets unsupported finish
  have hfinish : ∀ {unrolled : Bool} {call? : Option (String × List Expr)},
      Runs H C b (finish unrolled call?) fun _ _ => True := by
    intro unrolled call?
    dsimp only [finish]
    split
    · rename_i space hspace
      obtain ⟨⟨path, args⟩, -, hpath⟩ := Option.bind_eq_some_iff.1 hspace
      exact (runs_spaceOf hpath).bind fun _ _ _ _ => .pure trivial
    · exact .fail
  split
  · exact hfinish
  · exact hfinish
  · exact hfinish

theorem bindingHint_eq : ∃ name, bindingHint binding = hintOf name := by
  cases binding <;> exact ⟨_, rfl⟩

section Bounds

variable {ctx : Context} {scope : Scope} {space : Space} (hctx : InlinerOk H ctx.inline)
include hctx

theorem stepOk_staticBounds : StepOk H scope (staticBounds ctx scope space) fun _ _ => True := by
  intro C b hs
  have hconst : ∀ (x : Expr) (b' : Builder), C.env b ≤ C.env b' →
      Runs H C b' (lowerIntConst ctx scope "static loop bound" x) fun _ _ => True :=
    fun x b' h => stepOk_lowerIntConst hctx C b' (hs.mono h)
  unfold staticBounds
  split
  · exact (hconst _ b (Env.le_refl _)).bind fun _ _ _ _ => Runs.pure trivial
  · refine (hconst _ b (Env.le_refl _)).bind fun _ b1 h1 _ => ?_
    exact (hconst _ b1 h1).bind fun _ _ _ _ => .pure trivial
  · exact .pure trivial
  · refine (Runs.mapAll (fun _ _ => trivial) fun x _ b' h => hconst x b' h).bind
      fun _ _ _ _ => .pure trivial

theorem stepOk_loopBounds : StepOk H scope (loopBounds ctx scope space) fun e r =>
    Holds H e r.1 .i32 ∧ Holds H e r.2.1 .i32 ∧ ∀ d ∈ r.2.2, Holds H e d .i32 := by
  intro C b hs
  have hbounds : ∀ xs : List Expr, Runs H C b
      (xs.mapM fun x => do intOperand (← lowerExpr ctx scope x) x.span)
      fun e os => ∀ o ∈ os, Holds H e o .i32 := by
    intro xs
    refine (Runs.mapAll (fun he h => h.mono he) fun x _ b' h => ?_).imp fun _ _ _ h => h.2
    exact (exprOk hctx x C b' (hs.mono h)).bind fun l b'' _ hl => runs_intOperand hl
  unfold loopBounds
  split
  · refine (hbounds _).bind fun os b1 _ hos => ?_
    split
    · exact Runs.pure ⟨Holds.int _ _, hos _ (by simp), nofun⟩
    · exact Runs.pure ⟨hos _ (by simp), hos _ (by simp), nofun⟩
    · exact Runs.pure ⟨Holds.int _ _, Holds.int _ _, nofun⟩
  · refine (hbounds _).bind fun dims b1 _ hdims => ?_
    refine (Runs.foldlM (R := fun e o => Holds H e o .i32) (fun d hd acc b2 h2 hacc => ?_) (Holds.int _ _)).bind
      fun total b3 h3 htotal => Runs.pure ⟨Holds.int _ _, htotal, fun d hd => (hdims d hd).mono h3⟩
    exact (runs_intBinary (by decide) hacc ((hdims d hd).mono h2)).imp fun _ _ _ h => h.1

end Bounds

/-! ## 3. Multi-indices -/

theorem runs_unflattenTail (hflat : Holds H (C.env b) flat .i32)
    (hdims : ∀ d ∈ dims, Holds H (C.env b) d .i32) :
    Runs H C b (unflattenTail flat dims) fun e r => (∀ p ∈ r.1, Holds H e p .i32) ∧ Holds H e r.2 .i32 := by
  induction dims with
  | nil => exact .pure ⟨nofun, hflat⟩
  | cons dim dims ih =>
    unfold unflattenTail
    refine (ih fun d hd => hdims d (mem_cons_of_mem _ hd)).bind fun r b1 h1 hr => ?_
    have hdim := (hdims dim (mem_cons_self ..)).mono h1
    refine (runs_intBinary (by decide) hr.2 hdim).bind fun part b2 h2 hpart => ?_
    refine (runs_intBinary (by decide) (hr.2.mono h2) (hdim.mono h2)).bind fun q b3 h3 hq =>
      .pure ⟨fun p hp => ?_, hq.1⟩
    rcases mem_cons.1 hp with rfl | hp
    · exact hpart.1.mono h3
    · exact (hr.1 p hp).mono (Env.le_trans h2 h3)

theorem runs_unflatten (hflat : Holds H (C.env b) flat .i32)
    (hdims : ∀ d ∈ dims, Holds H (C.env b) d .i32) :
    Runs H C b (unflatten flat dims) fun e parts => ∀ p ∈ parts, Holds H e p .i32 := by
  cases dims with
  | nil => exact .pure (by simpa using hflat)
  | cons dim dims =>
    refine (runs_unflattenTail hflat fun d hd => hdims d (mem_cons_of_mem _ hd)).bind fun r b1 _ hr => .pure ?_
    intro p hp
    rcases mem_cons.1 hp with rfl | hp
    · exact hr.2
    · exact hr.1 p hp

/-! ## 4. Loops in one thread -/

/-- The body of a loop, in any scope that is supported. What it declares is settled. -/
def BodyOk (H : Host) (body : Scope → Lower Scope) : Prop :=
  ∀ scope, StepOk H scope (body scope) fun e s => ScopeAdds H e.settled scope s

theorem loopBody_closed {kind : LoopKind} {it : Iteration} {index : StmtId}
    {body : Scope → Lower Scope} {d : Defs} {b' : Builder} {stmts : List IR.Stmt}
    (hbody : BodyOk H body) (hs : ScopeOk H (envOf b.fields C.past d) scope)
    (hindex : (index, Def.index) ∈ d) (hdims : ∀ o ∈ dims, Holds H (envOf b.fields C.past d) o .i32)
    (h : loopBody kind scope binding it index dims body b = .ok stmts b') :
    Closed H (C.within d) b b' stmts := by
  obtain ⟨⟨ss, s⟩, b1, h1, h2⟩ := bind_ok h
  cases h2
  have henv : (C.within d).env { b with block := #[], loops := kind :: b.loops } = envOf b.fields C.past d :=
    C.env_within_nil
  refine (Runs.capture (Q := fun _ _ => True) (Runs.inLoop ?_) h1).1
  refine (runs_unflatten ?_ ?_).bind fun parts b2 h2 hparts => ?_
  · rw [henv]
    exact Holds.stmt hindex rfl fun _ => rfl
  · rwa [henv]
  refine (runs_bindIndex hparts).bind fun s' b3 h3 hs' => ?_
  have hs3 : ScopeOk H ((C.within d).env b3) scope := hs.mono (Env.le_trans (henv ▸ h2) h3)
  exact (hbody s' _ _ (hs'.scopeOk hs3 (Env.le_refl _))).imp fun _ _ _ _ => trivial

section Serial

variable {ctx : Context} {scope : Scope} {binding : Binding} {it : Iteration}
  {body : Scope → Lower Scope} (hctx : InlinerOk H ctx.inline) (hbody : BodyOk H body)
include hctx hbody

theorem stepOk_unroll : StepOk H scope (unroll ctx scope binding it span body) fun _ _ => True := by
  intro C b hs
  refine (stepOk_staticBounds hctx C b hs).bind fun bounds b1 h1 _ => ?_
  extract_lets count
  split
  · exact .fail
  · refine .forM fun flat _ b2 h2 => ?_
    refine runs_bindIndex_const.bind fun inner b3 h3 hinner => ?_
    have hs3 := hs.mono (Env.le_trans h1 (Env.le_trans h2 h3))
    have hrun := hbody inner C { b3 with loops := .static :: b3.loops } (hinner.scopeOk hs3 Env.settled_le)
    exact .discard (.inLoop hrun)

theorem stepOk_serialFor :
    StepOk H scope (serialFor ctx scope binding it body) fun _ _ => True := by
  intro C b hs
  refine (stepOk_loopBounds hctx C b hs).bind fun r b1 h1 hr => ?_
  obtain ⟨first, last, dims⟩ := r
  obtain ⟨hfirst, hlast, hdims⟩ := hr
  intro hg u b' k
  obtain ⟨index, b2, h2, k2⟩ := bind_ok k
  obtain ⟨rfl, rfl⟩ := freshId_ok h2
  obtain ⟨stmts, b3, h3, k3⟩ := bind_ok k2
  have hd : C.env b1 ≤ envOf b1.fields C.past ((C.env b1).here ++ [(b1.nextId, Def.index)]) :=
    envOf_mono_here (subset_append_left _ _)
  have hclosed := loopBody_closed (b := { b1 with nextId := b1.nextId + 1 }) hbody
    ((hs.mono h1).mono hd) (mem_append_right _ (mem_singleton_self _))
    (fun o ho => (hdims o ho).mono hd) h3
  have hframe : Frame H b1 { b1 with nextId := b1.nextId + 1 } := Frame.nextId_succ
  have hg3 := hclosed.good (hframe.good hg)
  have he3 := hframe.extension.trans hclosed.extension
  have hhere : (C.env b3).here = (C.env b1).here := hclosed.here
  have hle : C.env b1 ≤ C.env b3 := he3.env_le C
  have hfresh : ∀ i ∈ idsOf stmts, b1.nextId < i ∧ i < b3.nextId := hclosed.fresh
  obtain rfl := push_ok k3
  obtain ⟨hg', he'⟩ := hg3.push (s := .rangeFor b1.nextId first last stmts (bindingHint binding)) he3 (by
      refine ⟨⟨hfirst.mono hle, hlast.mono hle, bindingHint_eq⟩, ?_⟩
      rw [hhere]
      exact hclosed.block)
    (by
      rw [idsOf_rangeFor]
      exact nodup_cons.2 ⟨fun hi => Nat.lt_irrefl _ (hfresh _ hi).1, hclosed.nodup⟩)
    (by
      rw [idsOf_rangeFor]
      intro i hi
      rcases mem_cons.1 hi with rfl | hi
      · exact ⟨Nat.le_refl _, Nat.lt_of_lt_of_le (Nat.lt_succ_self _) hclosed.nextId⟩
      · exact ⟨Nat.le_of_lt (hfresh i hi).1, (hfresh i hi).2⟩)
    (by
      rw [idsOf_rangeFor, hclosed.same]
      intro i hi hmem
      rcases mem_cons.1 hi with rfl | hi
      · exact Nat.lt_irrefl _ (hg.below _ hmem)
      · exact Nat.lt_asymm (hg.below i hmem) (hfresh i hi).1)
  exact ⟨hg', he', trivial⟩

end Serial

end ArrayKernel.Lowering
