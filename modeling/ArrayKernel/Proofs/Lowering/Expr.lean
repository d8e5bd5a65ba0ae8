import ArrayKernel.Proofs.Lowering.Builtin

/-!
# Expressions

Every expression lowers to something that the environment it is left in supports, given that the
expansion of calls does.
-/

namespace ArrayKernel.Lowering

open IR Surface List Option

variable {H : Host} {C : Ctx} {b : Builder} {e : Env} {α : Type} {scope : Scope}
  {noSpan span yesSpan : Span} {no yes : Lower Lowered} {name : String} {c : Callee}
  {path : List String}

/-! ## 1. Steps in a scope -/

def StepOk (H : Host) (scope : Scope) (m : Lower α) (Q : Env → α → Prop) : Prop :=
  ∀ (C : Ctx) (b : Builder), ScopeOk H (C.env b) scope → Runs H C b m Q

abbrev ExprOk (H : Host) (scope : Scope) (m : Lower Lowered) : Prop :=
  StepOk H scope m fun e l => LoweredOk H e l

abbrev ArgsOk (H : Host) (scope : Scope) (m : Lower (List Arg)) : Prop :=
  StepOk H scope m fun e as => ∀ a ∈ as, LoweredOk H e a.lowered

theorem StepOk.capture {m : Lower α} {Q : Env → α → Prop} (hm : StepOk H scope m Q) {d : Defs}
    (hs : ScopeOk H (envOf b.fields C.past d) scope) {b' : Builder} {ss : List IR.Stmt} {a : α}
    (h : Lowering.capture m b = .ok (ss, a) b') :
    Closed H (C.within d) b b' ss ∧ Q (envOf b'.fields C.past (d ++ IR.Stmt.defsOf ss)) a :=
  Runs.capture (hm _ _ (by rwa [Ctx.env_within_nil])) h

def InlinerOk (H : Host) (inline : Inliner) : Prop :=
  ∀ (C : Ctx) (b : Builder) (f : FunctionValue) (args : List Arg) (receiver : Option Value)
    (caller : Scope) (span : Span), (∀ a ∈ args, LoweredOk H (C.env b) a.lowered) →
    (∀ v, receiver = some v → ValueOk H (C.env b) v) → ScopeOk H (C.env b) caller →
    Runs H C b (inline f args receiver caller span) fun e l => LoweredOk H e l

/-! ## 2. Choices -/

theorem runs_storeBranch {slot : StmtId} {o : Operand} {source ty : Ty}
    (hslot : IsSlot (C.env b).all slot ty) (hty : ty.isStruct = false)
    (ho : Holds H (C.env b) o source) : Runs H C b (do
      let o ← coerce o source ty span
      discard <| emit (.localStore slot [] o)) fun _ _ => True := by
  refine (runs_coerce ho).bind fun x b1 h1 hx => ?_
  have hp : PlaceOk H (C.env b1) (.local slot ty [] ty) := ⟨hslot.mono h1.1, nofun, fun _ => hty, fun _ => rfl⟩
  exact .discard (.emit (.localStore _ hp hx))

theorem stepOk_rvalue {m : Lower Lowered} (hm : ExprOk H scope m) :
    StepOk H scope (do rvalue (← m) span) fun e x => Holds H e x.1 x.2 :=
  fun C b hs => (hm C b hs).bind fun _ _ _ hl => runs_rvalue hl

/-- Both branches are evaluated in blocks of their own and meet in a slot. -/
theorem runs_branches {c : Operand} {s : Scalar} (hs : ScopeOk H (C.env b) scope)
    (hc : Holds H (C.env b) c (.scalar s)) (hyes : ExprOk H scope yes) (hno : ExprOk H scope no) :
    Runs H C b (do
      let (yesBody, a, aTy) ← capture do rvalue (← yes) yesSpan
      let (noBody, b, bTy) ← capture do rvalue (← no) noSpan
      let ty ← typed span (aTy.broadcast bTy)
      let slot ← emit (.alloca ty "select")
      let assign (o : Operand) (source : Ty) : Lower Unit := do
        let o ← coerce o source ty span
        discard <| emit (.localStore slot [] o)
      let (yesBody, _) ← captureInto yesBody.toArray (assign a aTy)
      let (noBody, _) ← captureInto noBody.toArray (assign b bTy)
      push (.ifElse (← freshId) c yesBody noBody)
      return Lowered.value (← emitValue (.localLoad slot [] ty)) ty) fun e l => LoweredOk H e l := by
  intro hg r b' k
  obtain ⟨⟨yesBody, a, aTy⟩, b1, h1, k1⟩ := bind_ok k
  obtain ⟨hyesC, ha⟩ := (stepOk_rvalue hyes).capture hs h1
  obtain ⟨⟨noBody, a', aTy'⟩, b2, h2, k2⟩ := bind_ok k1
  obtain ⟨hnoC, ha'⟩ := (stepOk_rvalue hno).capture (hyesC.scopeOk hs) h2
  obtain ⟨ty, b3, h3, k3⟩ := bind_ok k2
  obtain ⟨hty, rfl⟩ := typed_ok h3
  have hstruct := Ty.broadcast_not_struct hty
  have hg3 := hnoC.good (hyesC.good hg)
  have he3 := hyesC.extension.trans hnoC.extension
  -- the slot stands before the statement that the branches go into
  obtain ⟨slot, b4, h4, k4⟩ := bind_ok k3
  have hhint : "select" = hintOf "select" := by decide
  have hop : OpOk H (C.env b3) C.ret (.alloca ty "select") := .alloca C.ret hhint fun _ => hstruct
  obtain ⟨hg4, he4, hslot⟩ := Runs.emit hop hg3 _ _ h4
  obtain ⟨rfl, hb4⟩ := emit_ok h4
  have henv : C.env b ≤ C.env b4 := (he3.trans he4).env_le C
  have hisSlot : ∀ fields ss, IsSlot (envOf fields C.past ((C.env b4).here ++ Stmt.defsOf ss)).all b3.nextId ty :=
    fun _ ss => ⟨_, mem_append_right _ (mem_append_left _ hslot)⟩
  have hinner : ∀ {fields fields'} ss, fields ⊆ fields' →
      envOf fields C.past ((C.env b).here ++ Stmt.defsOf ss) ≤ envOf fields' C.past
        ((C.env b4).here ++ Stmt.defsOf ss) :=
    fun ss hf => envOf_mono hf (List.Subset.refl _) (Defs.append_mono_left henv.2)
  obtain ⟨⟨yesBody', u⟩, b5, h5, k5⟩ := bind_ok k4
  obtain ⟨hyesB, hyesN, hyesI, hf5⟩ := Runs.captureInto hyesC henv.2
    (Nat.le_trans hnoC.nextId he4.nextId) (List.Subset.trans hnoC.fields he4.fields)
    (runs_storeBranch (hisSlot _ yesBody) hstruct
      (ha.mono (hinner yesBody (List.Subset.trans hnoC.fields he4.fields)))) h5
  obtain ⟨⟨noBody', u'⟩, b6, h6, k6⟩ := bind_ok k5
  obtain ⟨hnoB, hnoN, hnoI, hf6⟩ := Runs.captureInto hnoC henv.2
    (Nat.le_trans he4.nextId hf5.nextId) (List.Subset.trans he4.fields hf5.fields)
    (runs_storeBranch (hisSlot _ noBody) hstruct
      (ha'.mono (hinner noBody (List.Subset.trans he4.fields hf5.fields)))) h6
  obtain ⟨id, b7, h7, k7⟩ := bind_ok k6
  obtain ⟨u'', b8, h8, k8⟩ := bind_ok k7
  have hg6 := hf6.good (hf5.good hg4)
  have he6 := he3.trans (he4.trans (hf5.extension.trans hf6.extension))
  have hhere6 : (C.env b6).here = (C.env b4).here := hf6.here.trans hf5.here
  have hle6 : C.env b4 ≤ C.env b6 := (hf5.extension.trans hf6.extension).env_le C
  have hids : Stmt.idsOf b6.block.toList = Stmt.idsOf b.block.toList ++ [b3.nextId] := by
    rw [hf6.same, hf5.same, hb4, Array.toList_push, Stmt.idsOf_append, hnoC.same, hyesC.same]
    rfl
  have hle := And.intro hyesC.nextId (And.intro hnoC.nextId (And.intro hf5.nextId hf6.nextId))
  obtain ⟨hg8, he8, hle8⟩ := hg6.pushFresh he6 h7 h8 (by
      refine ⟨⟨s, hc.mono (Env.le_trans henv hle6)⟩, ?_, ?_⟩ <;> rw [hhere6]
      · exact (C.check_implies hf6.fields).block (List.Subset.refl _) _ hyesB
      · exact hnoB) Stmt.idsOf_ifElse
    (nodup_append.2 ⟨hyesN, hnoN, fun i hi j hj hij => by grind [hyesI i hi, hnoI j hj]⟩)
    (by
      intro i hi
      have hi : b.nextId ≤ i ∧ i < b6.nextId ∧ i ≠ b3.nextId := by
        rcases mem_append.1 hi with hi | hi
        · grind [hyesI i hi]
        · grind [hnoI i hi]
      refine ⟨hi.1, hi.2.1, fun hmem => ?_⟩
      rw [hids, mem_append, mem_singleton] at hmem
      rcases hmem with hmem | hmem
      · exact absurd (hg.below i hmem) (Nat.not_lt.2 hi.1)
      · exact hi.2.2 hmem)
  replace hle8 := Env.le_trans hle6 hle8
  have hplace : PlaceOk H (C.env b8) (.local b3.nextId ty [] ty) :=
    ⟨⟨_, hle8.1 ((C.env b4).here_subset hslot)⟩, nofun, fun _ => hstruct, fun _ => rfl⟩
  have hload : Runs H C b8 (emitValue (.localLoad b3.nextId [] ty) >>= fun x => pure
      (Lowered.value x ty)) fun e l => LoweredOk H e l :=
    (Runs.emitValue (OpOk.localLoad _ hplace) rfl fun _ => hstruct).bind fun x b9 _ hx => Runs.pure hx
  obtain ⟨hg', he', hr⟩ := hload hg8 _ _ k8
  exact ⟨hg', he8.trans he', hr⟩

theorem exprOk_select {cond : Lower Lowered} {condSpan : Span}
    (hcond : ExprOk H scope cond) (hyes : ExprOk H scope yes) (hno : ExprOk H scope no) :
    ExprOk H scope (select cond yes no condSpan yesSpan noSpan span) := by
  intro C b hs
  refine (hcond C b hs).bind fun l b0 h0 hl => ?_
  refine (runs_rvalue hl).bind fun x b1 h1 hx => ?_
  obtain ⟨c, cTy⟩ := x
  replace hs := hs.mono (Env.le_trans h0 h1)
  simp only
  split
  · exact Runs.fail
  · rename_i hscalar
    obtain ⟨s, rfl⟩ := Ty.isScalar_iff.1 (by simpa using hscalar)
    split
    · split
      · exact hyes _ _ hs
      · exact hno _ _ hs
    · exact runs_branches hs hx hyes hno

/-! ## 3. Calls -/

/-- What is called can be called: a receiver is supported, and an operation is one of the table. -/
def CalleeOk (H : Host) (e : Env) : Callee → Prop
  | .function _ receiver => ∀ v, receiver = some v → ValueOk H e v
  | .intrinsic i => i ∈ Intrinsic.table

theorem calleeOk_ofLibrary? (h : Callee.ofLibrary? name = some c) : CalleeOk H e c := by
  rcases or_eq_some_iff.1 h with h | ⟨-, h⟩
  · obtain ⟨f, -, rfl⟩ := map_eq_some_iff.1 h
    exact nofun
  · obtain ⟨i, hi, rfl⟩ := map_eq_some_iff.1 h
    unfold Intrinsic.find? at hi
    exact mem_of_find?_eq_some hi

theorem calleeOk_ofPath? (hs : ScopeOk H e scope) (h : Callee.ofPath? scope path = some c) :
    CalleeOk H e c := by
  unfold Callee.ofPath? at h
  split at h
  · cases h
    intro v hv
    exact hs.resolve? (filter_eq_some_iff.1 hv).1
  · simp only at h
    split at h
    · cases h
    · exact calleeOk_ofLibrary? h

theorem calleeOk_ofMethod? (h : Callee.ofMethod? scope name = some c) : CalleeOk H e c := by
  unfold Callee.ofMethod? at h
  split at h
  · cases h
    exact nofun
  · exact calleeOk_ofLibrary? h

section Calls

variable {ctx : Context} {scope : Scope} {span : Span} (hctx : InlinerOk H ctx.inline)
  {base : Lower Lowered} {args : Lower (List Arg)}
include hctx

theorem runs_apply {args : List Arg} (hc : CalleeOk H (C.env b) c) (hs : ScopeOk H (C.env b) scope)
    (hargs : ∀ a ∈ args, LoweredOk H (C.env b) a.lowered) :
    Runs H C b (c.apply ctx scope span args) fun e l => LoweredOk H e l := by
  cases c with
  | function f receiver => exact hctx C b f args receiver scope span hargs hc hs
  | intrinsic i => exact runs_builtin hc hargs

theorem exprOk_callMember {baseSpan : Span} {name : Name} (hbase : ExprOk H scope base)
    (hargs : ArgsOk H scope args) :
    ExprOk H scope (callMember ctx scope span baseSpan name base args) := by
  intro C b hs
  refine (hbase C b hs).bind fun receiver b1 h1 hreceiver => ?_
  split
  · rename_i f owner hmethod
    refine (hargs C b1 (hs.mono h1)).bind fun as b2 h2 has => ?_
    refine hctx C b2 f as (some owner) scope span has ?_ (hs.mono (Env.le_trans h1 h2))
    rintro v ⟨⟩
    unfold method? at hmethod
    split at hmethod
    · split at hmethod
      · cases hmethod
        exact ValueOk.mono (Env.le_trans Env.settled_le h2) _ hreceiver
      · cases hmethod
    · cases hmethod
  · refine (hargs C b1 (hs.mono h1)).bind fun as b2 h2 has => ?_
    split
    · rename_i c hc
      refine runs_apply hctx (calleeOk_ofMethod? hc) (hs.mono (Env.le_trans h1 h2)) fun a ha => ?_
      rcases mem_cons.1 ha with rfl | ha
      · exact hreceiver.mono h2
      · exact has a ha
    · exact .fail

theorem exprOk_call {callee : Expr} (hbase : ExprOk H scope base)
    (hargs : ArgsOk H scope args) : ExprOk H scope (call ctx scope span callee base args) := by
  intro C b hs
  unfold call
  split
  · refine (hargs C b hs).bind fun as b1 h1 has => ?_
    exact hctx C b1 _ as none scope span has nofun (hs.mono h1)
  · split
    · rename_i c hc
      obtain ⟨path, -, hpath⟩ := bind_eq_some_iff.1 hc
      refine (hargs C b hs).bind fun as b1 h1 has => ?_
      exact runs_apply hctx (calleeOk_ofPath? (hs.mono h1) hpath) (hs.mono h1) has
    · split
      · split
        · exact .fail
        · exact exprOk_callMember hctx hbase hargs C b hs
      · exact exprOk_callMember hctx hbase hargs C b hs
      · split
        · exact .fail
        · exact .fail
      · exact .fail

end Calls

/-! ## 4. Expressions -/

theorem runs_memberValue {l : Lowered} (hl : LoweredOk H (C.env b) l) :
    Runs H C b (memberValue l span) fun e m => MemberOk H e m := by
  cases l with
  | place p =>
    refine (runs_loadRecord? hl).bind fun r b1 h1 hr => ?_
    cases r with
    | some es => exact .pure (hr es rfl)
    | none => exact (runs_load (hl.mono h1)).bind fun x b2 _ hx => .pure hx.1
  | _ => exact .pure hl

theorem runs_named {v : Option Value} (hv : ∀ w, v = some w → ValueOk H (C.env b) w) :
    Runs H C b (named v name span) fun e l => LoweredOk H e l := by
  cases v with
  | some w => exact runs_ofValue (hv w rfl)
  | none => exact .fail

theorem valueOk_pathValue? {v : Value} (hs : ScopeOk H e scope)
    (h : pathValue? scope path = some v) : ValueOk H e v := by
  rcases or_eq_some_iff.1 h with h | ⟨-, h⟩
  · exact hs.resolve? h
  · obtain ⟨c, -, rfl⟩ := map_eq_some_iff.1 h
    trivial

section Expressions

variable {ctx : Context} {scope : Scope} {x : Expr}

mutual

/-- What lowering an expression keeps, by recursion on the expression. -/
theorem exprOk (hctx : InlinerOk H ctx.inline) : (x : Expr) → ExprOk H scope (lowerExpr ctx scope x)
  | .int span n => by
    intro C b _
    unfold lowerExpr intLiteral
    split
    · exact .pure trivial
    · split
      · exact .pure trivial
      · exact .fail
  | .float _ v | .bool _ t => fun C b _ => .pure trivial
  | .var span name => by
    intro C b hs
    exact runs_named fun w hw => hs.get? hw
  | .this span => by
    intro C b hs
    exact runs_named fun w hw => hs.receiver w hw
  | .member span base name => by
    intro C b hs
    unfold lowerExpr
    split
    · rename_i v hv
      obtain ⟨path, -, hpath⟩ := bind_eq_some_iff.1 hv
      exact runs_ofValue (valueOk_pathValue? hs hpath)
    · exact (exprOk hctx base C b hs).bind fun l b1 _ hl => runs_member hl
  | .index span base indices => by
    intro C b hs
    refine (exprOk hctx base C b hs).bind fun l b1 h1 hl => ?_
    refine (indicesOk hctx indices C b1 (hs.mono h1)).bind fun is b2 h2 his => ?_
    exact runs_index (hl.mono h2) his
  | .call span callee args => by
    have hvoid : ExprOk H scope (pure .void) := fun C b _ => .pure trivial
    cases callee with
    | member mspan base name =>
      exact exprOk_call hctx (exprOk hctx base) (argsOk hctx args)
    | _ =>
      exact exprOk_call hctx hvoid (argsOk hctx args)
  | .unary span op operand => by
    intro C b hs
    refine (exprOk hctx operand C b hs).bind fun l b1 _ hl => ?_
    refine (runs_rvalue hl).bind fun x b2 _ hx => ?_
    exact (runs_unary hx).bind fun y b3 _ hy => .pure hy
  | .binary span op lhs rhs => by
    intro C b hs
    refine (exprOk hctx lhs C b hs).bind fun l b1 h1 hl => ?_
    refine (runs_rvalue hl).bind fun x b2 h2 hx => ?_
    refine (exprOk hctx rhs C b2 (hs.mono (Env.le_trans h1 h2))).bind fun r b3 h3 hr => ?_
    refine (runs_rvalue hr).bind fun y b4 h4 hy => ?_
    exact (runs_binary (hx.mono (Env.le_trans h3 h4)) hy).bind fun z b5 _ hz => Runs.pure hz.1
  | .conditional span cond yes no => by
    exact exprOk_select (exprOk hctx cond) (exprOk hctx yes) (exprOk hctx no)
  | .array span items => by
    intro C b hs
    exact (argsOk hctx items C b hs).bind fun as b1 _ has => runs_arrayOf has
  | .object _ members => by
    intro C b hs
    exact (membersOk hctx members C b hs).bind fun es b1 _ hes => .pure hes
  | .arrow _ r => fun C b _ => .pure trivial

theorem argsOk (hctx : InlinerOk H ctx.inline) :
    (xs : List Expr) → ArgsOk H scope (lowerArgs ctx scope xs)
  | [] => fun C b _ => .pure nofun
  | x :: xs => by
    intro C b hs
    unfold lowerArgs
    refine (exprOk hctx x C b hs).bind fun l b1 h1 hl => ?_
    refine (argsOk hctx xs C b1 (hs.mono h1)).bind fun as b2 h2 has => .pure fun a ha => ?_
    rcases mem_cons.1 ha with rfl | ha
    · exact hl.mono h2
    · exact has a ha

theorem indicesOk (hctx : InlinerOk H ctx.inline) : (xs : List Expr) →
    StepOk H scope (lowerIndices ctx scope xs) fun e is => ∀ i ∈ is, Holds H e i .i32
  | [] => fun C b _ => .pure nofun
  | x :: xs => by
    intro C b hs
    unfold lowerIndices
    refine (exprOk hctx x C b hs).bind fun l b1 h1 hl => ?_
    refine (runs_indexOperands hl).bind fun is b2 h2 his => ?_
    refine (indicesOk hctx xs C b2 (hs.mono (Env.le_trans h1 h2))).bind fun js b3 h3 hjs => Runs.pure fun i hi => ?_
    rcases mem_append.1 hi with hi | hi
    · exact (his i hi).mono h3
    · exact hjs i hi

theorem membersOk (hctx : InlinerOk H ctx.inline) :
    (ms : List Member) → StepOk H scope (lowerMembers ctx scope ms) fun e es => EntriesOk H e es
  | [] => fun C b _ => .pure trivial
  | .mk name x :: ms => by
    intro C b hs
    unfold lowerMembers
    refine (exprOk hctx x C b hs).bind fun l b1 h1 hl => ?_
    refine (runs_memberValue hl).bind fun m b2 h2 hm => ?_
    refine (membersOk hctx ms C b2 (hs.mono (Env.le_trans h1 h2))).bind fun es b3 h3 hes => Runs.pure ?_
    exact ⟨.mono h3 m hm, hes⟩

end

theorem stepOk_lowerIntConst (hctx : InlinerOk H ctx.inline) {what : String} :
    StepOk H scope (lowerIntConst ctx scope what x) fun _ _ => True := by
  intro C b hs
  refine (exprOk hctx x C b hs).bind fun l b1 _ _ => ?_
  split
  · split
    · exact .pure trivial
    · exact .fail
  · exact .fail

theorem stepOk_lowerCondition (hctx : InlinerOk H ctx.inline) :
    StepOk H scope (lowerCondition ctx scope x) fun e c => ∃ s, Holds H e c (.scalar s) := by
  intro C b hs
  refine (exprOk hctx x C b hs).bind fun l b1 _ hl => ?_
  refine (runs_rvalue hl).bind fun c b2 _ hc => ?_
  obtain ⟨c, ty⟩ := c
  simp only
  split
  · rename_i hscalar
    obtain ⟨s, rfl⟩ := Ty.isScalar_iff.1 hscalar
    exact .pure ⟨s, hc⟩
  · exact .fail

end Expressions

end ArrayKernel.Lowering
