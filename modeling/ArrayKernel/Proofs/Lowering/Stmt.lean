import ArrayKernel.Proofs.Lowering.Loop

/-!
# Statements

A statement adds settled names to the scope. Branches and loops are closed blocks, so their ids are
their own.
-/

namespace ArrayKernel.Lowering

open IR Surface

variable {H : Host} {C : Ctx} {b : Builder} {e : Env} {span : Span} {ctx : Context} {scope : Scope}
  {no yes : Lower Scope} {c : Operand} {Q R : Env → Scope → Prop}

/-! ## 1. Control and assignment -/

theorem runs_loopControl {c : LoopControl} : Runs H C b (loopControl c span) fun _ _ => True := by
  have hop : OpOk H (C.env b) C.ret (.loopControl c) :=
    OpOk.ofPlain ⟨rfl, rfl, rfl, nofun⟩ trivial trivial nofun (by simp [Op.types]) fun _ => trivial
  have hemit := Runs.discard (.emit hop)
  refine .get ?_
  split
  · exact hemit
  · exact hemit
  · exact .fail
  · exact .fail
  · exact .fail
  · exact .fail

theorem stepOk_lowerAssign {op : AssignOp} {place value : Expr} (hctx : InlinerOk H ctx.inline) :
    StepOk H scope (lowerAssign ctx scope op place value span) fun _ _ => True := by
  intro C b hs
  refine (exprOk hctx place C b hs).bind fun l b1 h1 hl => ?_
  split
  · rename_i target
    refine (exprOk hctx value C b1 (hs.mono h1)).bind fun rhs b2 h2 hrhs => ?_
    have htarget : PlaceOk H (C.env b2) target := PlaceOk.mono hl h2
    split
    · exact runs_store htarget hrhs
    · exact .discard (runs_atomic htarget hrhs)
    · refine (runs_load htarget).bind fun current b3 h3 hcurrent => ?_
      refine (runs_rvalue (hrhs.mono h3)).bind fun r b4 h4 hr => ?_
      refine (runs_binary (hcurrent.1.mono h4) hr).bind fun x b5 h5 hx => ?_
      exact runs_store (htarget.mono (Env.le_trans h3 (Env.le_trans h4 h5))) hx.1
  · exact .fail

theorem runs_declareFunction {r : Routine} :
    Runs H C b (declareFunction ctx scope r span) fun e s => ScopeAdds H e.settled scope s := by
  unfold declareFunction
  split
  · rename_i n _
    have hf : ValueOk H (C.env b).settled (.function ⟨n.text, r, ctx.origin⟩) := trivial
    exact .pure (.insert hf _)
  · exact .fail

/-! ## 2. Branches and conditional loops -/

theorem runs_keep {m : Lower Unit} (hm : Runs H C b m fun _ _ => True) :
    Runs H C b (m >>= fun _ => pure scope) fun e s => ScopeAdds H e.settled scope s :=
  hm.bind fun _ _ _ _ => .pure (.refl _ _)

theorem runs_lowerBranches (hs : ScopeOk H (C.env b) scope)
    (hc : ∃ s, Holds H (C.env b) c (.scalar s)) (hyes : StepOk H scope yes Q)
    (hno : StepOk H scope no R) : Runs H C b (lowerBranches c yes no) fun _ _ => True := by
  unfold lowerBranches
  split
  · rename_i l _
    cases l.truthy with
    | true => exact .discard (hyes C b hs)
    | false => exact .discard (hno C b hs)
  intro hg r b' k
  obtain ⟨⟨yesBody, s1⟩, b1, h1, k1⟩ := bind_ok k
  obtain ⟨hyesC, -⟩ := hyes.capture hs h1
  obtain ⟨⟨noBody, s2⟩, b2, h2, k2⟩ := bind_ok k1
  obtain ⟨hnoC, -⟩ := hno.capture (hyesC.scopeOk hs) h2
  obtain ⟨i, b3, h3, h4⟩ := bind_ok k2
  obtain ⟨s, hc⟩ := hc
  have hle := envOf_mono_fields (List.Subset.trans hyesC.fields hnoC.fields) C.past (C.env b).here
  obtain ⟨hg', he'⟩ := hg.pushBlocks hyesC hnoC h3 h4
    (by simp only [Check.stmt]; exact ⟨⟨s, hc.mono hle⟩, hyesC.checked hnoC.fields, hnoC.block⟩)
    IR.Stmt.idsOf_ifElse
  exact ⟨hg', he', trivial⟩

theorem runs_leaveOut {ss : List IR.Stmt} : Runs H C b (leaveOut ss) fun _ _ => True :=
  Runs.update (fun _ => ⟨rfl, rfl, rfl, rfl⟩) (.refl _) (fun _ => .inl) trivial

theorem stepOk_lowerWhile {cond : Lower Operand} {body : Lower Scope}
    (hcond : StepOk H scope cond fun e c => ∃ s, Holds H e c (.scalar s))
    (hbody : StepOk H scope body Q) : StepOk H scope (lowerWhile cond body) fun _ _ => True := by
  intro C b hs hg r b' k
  obtain ⟨⟨condBody, c⟩, b1, h1, k1⟩ := bind_ok k
  obtain ⟨hcondC, hc⟩ := hcond.capture hs h1
  simp only at k1
  split at k1
  · obtain ⟨hg', he', -⟩ := runs_leaveOut (hcondC.good hg) _ _ k1
    exact ⟨hg', hcondC.extension.trans he', trivial⟩
  · obtain ⟨⟨stmts, s1⟩, b2, h2, k2⟩ := bind_ok k1
    have hloop : StepOk H scope (inLoop .serial body) Q := fun C b hs =>
      Runs.inLoop (hbody C { b with loops := .serial :: b.loops } hs)
    obtain ⟨hbodyC, -⟩ := hloop.capture (hcondC.scopeOk hs) h2
    obtain ⟨i, b3, h3, h4⟩ := bind_ok k2
    obtain ⟨s, hc⟩ := hc
    have hcond := hc.mono (envOf_mono_fields hbodyC.fields _ _)
    obtain ⟨hg', he'⟩ := hg.pushBlocks hcondC hbodyC h3 h4
      (by simp only [Check.stmt]; exact ⟨hcondC.checked hbodyC.fields, ⟨s, hcond⟩, hbodyC.block⟩)
      IR.Stmt.idsOf_while
    exact ⟨hg', he', trivial⟩

/-! ## 3. Statements -/

section Statements

variable {ctx : Context}

mutual

theorem stmtOk (hctx : InlinerOk H ctx.inline) : (scope : Scope) → (x : Surface.Stmt) →
    StepOk H scope (lowerStmt ctx scope x) fun e s => ScopeAdds H e.settled scope s
  | scope, .decl span kind name none => by
    intro C b _
    exact .fail
  | scope, .decl _ kind name (some init) => by
    intro C b hs
    refine (exprOk hctx init C b hs).bind fun l b1 _ hl => ?_
    exact (runs_bindDecl l hl).bind fun v b2 _ hv => .pure (.insert hv _)
  | scope, .function span r => by
    intro C b _
    exact runs_declareFunction
  | scope, .ifElse span cond yes none => by
    intro C b hs
    refine (stepOk_lowerCondition hctx C b hs).bind fun c b1 h1 hc => ?_
    have hno : StepOk H scope (pure scope) fun _ _ => True := fun _ _ _ => .pure trivial
    exact runs_keep (runs_lowerBranches (hs.mono h1) hc (stmtOk hctx scope yes) hno)
  | scope, .ifElse _ cond yes (some no) => by
    intro C b hs
    refine (stepOk_lowerCondition hctx C b hs).bind fun c b1 h1 hc => ?_
    exact runs_keep (runs_lowerBranches (hs.mono h1) hc (stmtOk hctx scope yes) (stmtOk hctx scope no))
  | scope, .forOf span binding iter body => by
    intro C b hs
    have hbody : BodyOk H fun inner => lowerStmt ctx inner body := fun inner => stmtOk hctx inner body
    refine runs_iteration.bind fun it b1 h1 _ => ?_
    split
    · exact runs_keep (stepOk_unroll hctx hbody C b1 (hs.mono h1))
    · exact runs_keep (stepOk_serialFor hctx hbody C b1 (hs.mono h1))
  | scope, .while_ _ cond body => fun C b hs =>
    runs_keep (stepOk_lowerWhile (stepOk_lowerCondition hctx) (stmtOk hctx scope body) C b hs)
  | scope, .break_ span => by
    intro C b _
    exact runs_keep runs_loopControl
  | scope, .continue_ span => by
    intro C b _
    exact runs_keep runs_loopControl
  | scope, .return_ span _ => by
    intro C b _
    exact .fail
  | scope, .block _ body => by
    intro C b hs
    exact (stmtsOk hctx scope body C b hs).bind fun _ b1 _ _ => .pure (.refl _ _)
  | scope, .assign span op place value => by
    intro C b hs
    exact runs_keep (stepOk_lowerAssign hctx C b hs)
  | scope, .expr _ x => by
    intro C b hs
    exact (exprOk hctx x C b hs).bind fun _ b1 _ _ => .pure (.refl _ _)
  | scope, .empty _ => fun C b _ => .pure (.refl _ _)

theorem stmtsOk (hctx : InlinerOk H ctx.inline) : (scope : Scope) → (xs : List Surface.Stmt) →
    StepOk H scope (lowerStmts ctx scope xs) fun e s => ScopeAdds H e.settled scope s
  | scope, [] => fun C b _ => .pure (.refl _ _)
  | scope, x :: xs => by
    intro C b hs
    unfold lowerStmts
    refine (stmtOk hctx scope x C b hs).bind fun s b1 h1 hadds => ?_
    have hs1 := hadds.scopeOk (hs.mono h1) Env.settled_le
    exact (stmtsOk hctx s xs C b1 hs1).imp fun e s' he h => hadds.trans h (Env.settled_mono he)

end

theorem exprOk_body (hctx : InlinerOk H ctx.inline) {xs : List Surface.Stmt} :
    ExprOk H scope (lowerBody ctx scope xs) := by
  fun_induction lowerBody ctx scope xs with
  | case1 scope | case2 scope span => exact fun C b _ => .pure trivial
  | case3 scope span x => exact exprOk hctx x
  | case4 scope x xs _ _ ih =>
    intro C b hs
    refine (stmtOk hctx scope x C b hs).bind fun s b1 h1 hadds => ?_
    exact ih s C b1 (hadds.scopeOk (hs.mono h1) Env.settled_le)

end Statements

end ArrayKernel.Lowering
