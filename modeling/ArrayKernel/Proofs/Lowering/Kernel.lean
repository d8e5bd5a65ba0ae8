import ArrayKernel.Proofs.Lowering.Stmt

/-!
# Kernels

The open block is closed into a task before each parallel loop. The names of the outermost level
are settled, so the scope is supported by the tasks that have been made.
-/

namespace ArrayKernel.Lowering

open IR Surface List IR.Stmt

variable {H : Host} {C : Ctx} {b b' : Builder} {e : Env} {ps : List Surface.Param} {scope : Scope}
  {settings : CompilerSettings} {span : Span} {templates : List (String × Value)} {ty : Ty}

/-! ## 1. Functions -/

theorem runs_bindArgs {as : List Arg}
    (hs : ScopeOk H (C.env b) scope) (has : ∀ a ∈ as, LoweredOk H (C.env b) a.lowered) :
    Runs H C b (bindArgs scope ps as) fun e s => ScopeOk H e s := by
  induction ps generalizing as scope b with
  | nil => exact .pure hs
  | cons p ps ih =>
    cases as with
    | nil => exact .pure hs
    | cons a as =>
      unfold bindArgs
      refine (runs_bindArg (has a (mem_cons_self ..))).bind fun v b1 h1 hv => ?_
      exact ih ((hs.mono h1).insert hv _) fun x hx => (has x (mem_cons_of_mem _ hx)).mono h1

theorem inlinerOk {globals : Scope} (hg : ScopeOk H .empty globals) (depth : Nat) :
    InlinerOk H (inliner settings globals depth) := by
  induction depth with
  | zero =>
    intro C b f args receiver caller span _ _ _
    simp only [inliner]
    split
    · exact .fail
    · refine .get ?_
      split
      · exact .fail
      · exact .fail
  | succ depth ih =>
    intro C b f args receiver caller span hargs hreceiver _
    simp only [inliner]
    split
    · exact .fail
    · refine .get ?_
      split
      · exact .fail
      · have hscope : ScopeOk H _ _ :=
          @ScopeAll.calleeScope _ _ caller _ (fun _ _ _ hf => hf ▸ trivial) (hg.mono (Env.empty_le _)).table hreceiver
        refine (runs_bindArgs hscope hargs).bind fun s b1 h1 hs => ?_
        refine .mapError (.inFunction (.inLoop ?_))
        have hctx : InlinerOk H (Context.mk settings f.origin (inliner settings globals depth)).inline := ih
        exact exprOk_body hctx C _ hs

/-! ## 2. The outermost level -/

def topCtx (b : Builder) : Ctx := ⟨b.tasks.toList.flatMap Task.outer, [], b.ret⟩

abbrev topEnv (b : Builder) : Env := (topCtx b).env b

/-- The tasks that have been made and the open block pass the check, all their ids are distinct and
taken, and the fields that have been noted are those of the host. -/
structure TopGood (H : Host) (b : Builder) : Prop where
  tasks : Check.tasks (fun past => discipline H b.fields past b.ret) [] b.tasks.toList
  block : (topCtx b).Good H b
  nodup : (b.tasks.toList.flatMap Task.ids ++ idsOf b.block.toList).Nodup
  below : ∀ i ∈ b.tasks.toList.flatMap Task.ids, i < b.nextId
  fields : ∀ f ∈ b.fields, H.field f

/-- What a step at the outermost level keeps when it succeeds. All definitions that were made stay,
and the type of the result. -/
def TopRuns {α : Type} (H : Host) (b : Builder) (m : Lower α) (Q : Builder → α → Prop) : Prop :=
  TopGood H b → ∀ a b', m b = .ok a b' →
    TopGood H b' ∧ (topEnv b).settled ≤ (topEnv b').settled ∧ b'.ret = b.ret ∧ Q b' a

namespace TopRuns

variable {α β : Type} {Q : Builder → α → Prop} {m : Lower α}

theorem pure {a : α} (h : Q b a) : TopRuns H b (Pure.pure a) Q := by
  intro hg a' b' hm
  cases hm
  exact ⟨hg, Env.le_refl _, rfl, h⟩

theorem fail {cause : Cause} : TopRuns H b (failAt span cause : Lower α) Q := by
  intro _ a b' hm
  cases hm

theorem bind {f : α → Lower β} {R : Builder → β → Prop} (hm : TopRuns H b m Q)
    (hf : ∀ a b', (topEnv b).settled ≤ (topEnv b').settled → Q b' a → TopRuns H b' (f a) R) :
    TopRuns H b (m >>= f) R := by
  intro hg r b'' h
  obtain ⟨a, b', h1, h2⟩ := bind_ok h
  obtain ⟨hg', he, hret, hq⟩ := hm hg a b' h1
  obtain ⟨hg'', he', hret', hr⟩ := hf a b' he hq hg' r b'' h2
  exact ⟨hg'', Env.le_trans he he', hret'.trans hret, hr⟩

theorem imp {R : Builder → α → Prop} (hm : TopRuns H b m Q)
    (h : ∀ b' a, (topEnv b).settled ≤ (topEnv b').settled → Q b' a → R b' a) : TopRuns H b m R := by
  intro hg a b' ha
  obtain ⟨hg', he, hret, hq⟩ := hm hg a b' ha
  exact ⟨hg', he, hret, h b' a he hq⟩

theorem forM {f : α → Lower Unit} {xs : List α}
    (hf : ∀ x ∈ xs, ∀ b', (topEnv b).settled ≤ (topEnv b').settled → TopRuns H b' (f x) fun _ _ => True) :
    TopRuns H b (xs.forM f) fun _ _ => True := by
  induction xs generalizing b with
  | nil => exact pure trivial
  | cons x xs ih =>
    refine (hf x (mem_cons_self ..) b (Env.le_refl _)).bind fun _ b1 h1 _ => ?_
    exact ih fun x' hx' b' hb' => hf x' (mem_cons_of_mem _ hx') b' (Env.le_trans h1 hb')

theorem discardInLoop {kind : LoopKind} (hm : TopRuns H { b with loops := kind :: b.loops } m Q) :
    TopRuns H b (discard (inLoop kind m)) fun _ _ => True := by
  intro hg u b' h
  obtain ⟨a, h, -⟩ := map_ok h
  unfold inLoop at h
  split at h
  · cases h
    obtain ⟨hg', he, hret, -⟩ := hm ⟨hg.tasks, ⟨hg.block.block, hg.block.nodup, hg.block.below⟩,
      hg.nodup, hg.below, hg.fields⟩ _ _ ‹_›
    exact ⟨⟨hg'.tasks, ⟨hg'.block.block, hg'.block.nodup, hg'.block.below⟩, hg'.nodup, hg'.below,
      hg'.fields⟩, he, hret, trivial⟩
  · cases h

theorem ofRuns {Q : Env → α → Prop} (hm : Runs H (topCtx b) b m Q) :
    TopRuns H b m fun b' a => Q (topEnv b') a := by
  intro hg a b' h
  obtain ⟨hg', he, hq⟩ := hm hg.block a b' h
  have hctx : topCtx b' = topCtx b := by rw [topCtx, topCtx, he.tasks, he.ret]
  have hle := he.env_le (topCtx b)
  obtain ⟨ss, hss, hnew⟩ := he.block
  refine ⟨⟨?_, ?_, ?_, ?_, ?_⟩, ?_, he.ret, ?_⟩
  · rw [he.tasks, he.ret]
    exact Check.Implies.tasks (fun _ => discipline_implies he.fields (List.Subset.refl _) fun _ => id) hg.tasks
  · rw [hctx]
    exact hg'
  · rw [he.tasks]
    refine nodup_append.2 ⟨(nodup_append.1 hg.nodup).1, hg'.nodup, fun i hi j hj hij => ?_⟩
    subst hij
    rw [hss, idsOf_append] at hj
    rcases mem_append.1 hj with hj | hj
    · exact (nodup_append.1 hg.nodup).2.2 i hi i hj rfl
    · exact absurd (hg.below i hi) (Nat.not_lt.2 (hnew i hj))
  · rw [he.tasks]
    exact fun i hi => Nat.lt_of_lt_of_le (hg.below i hi) he.nextId
  · exact fun f hf => (he.host f hf).elim (hg.fields f) id
  · unfold topEnv
    rw [hctx]
    exact Env.settled_mono hle
  · show Q ((topCtx b').env b') a
    rwa [hctx]

end TopRuns

/-! ## 3. Tasks -/

structure Pushed (H : Host) (b b' : Builder) (t : Task) : Prop where
  tasks : b'.tasks = b.tasks.push t
  block : b'.block = #[]
  nextId : b.nextId ≤ b'.nextId
  ret : b'.ret = b.ret
  fields : b.fields ⊆ b'.fields
  host : ∀ f ∈ b'.fields, f ∈ b.fields ∨ H.field f

namespace Pushed

variable {b' : Builder} {t : Task} (h : Pushed H b b' t)
include h

theorem past : (topCtx b').past = (topCtx b).past ++ t.outer := by
  simp [topCtx, h.tasks]

theorem env_all : (topEnv b').all = (topCtx b).past ++ t.outer := by
  show (topCtx b').past ++ ([] ++ defsOf b'.block.toList) = _
  rw [h.past, h.block]
  simp

theorem topGood (hg : TopGood H b) (ht : (discipline H b'.fields (topCtx b).past b.ret).task t)
    (hn : t.ids.Nodup) (hids : ∀ i ∈ t.ids, i < b'.nextId ∧ i ∉ b.tasks.toList.flatMap Task.ids) :
    TopGood H b' := by
  have hlist : b'.tasks.toList = b.tasks.toList ++ [t] := by rw [h.tasks, Array.toList_push]
  refine ⟨?_, ⟨?_, ?_, ?_⟩, ?_, ?_, ?_⟩
  · rw [hlist, h.ret, Check.tasks_append]
    refine ⟨?_, ht, trivial⟩
    exact Check.Implies.tasks (fun _ => discipline_implies h.fields (List.Subset.refl _) fun _ => id) hg.tasks
  · rw [h.block]
    trivial
  · rw [h.block]
    exact nodup_nil
  · rw [h.block]
    nofun
  · rw [hlist, h.block]
    simp only [flatMap_append, flatMap_cons, flatMap_nil, append_nil, idsOf_nil]
    exact nodup_append.2 ⟨(nodup_append.1 hg.nodup).1, hn, fun i hi j hj hij => (hids j hj).2 (hij ▸ hi)⟩
  · rw [hlist]
    simp only [flatMap_append, flatMap_cons, flatMap_nil, append_nil, mem_append]
    exact fun i hi => hi.elim (fun hi => Nat.lt_of_lt_of_le (hg.below i hi) h.nextId) fun hi => (hids i hi).1
  · exact fun f hf => (h.host f hf).elim (hg.fields f) id

end Pushed

theorem topRuns_flushSerial : TopRuns H b flushSerial fun b' _ => b'.block = #[] := by
  intro hg u b' h
  have hb' : b' = if b.block.isEmpty then b
      else { b with tasks := b.tasks.push { body := b.block.toList }, block := #[] } := by
    cases h
    rfl
  split at hb' <;> subst hb'
  · exact ⟨hg, Env.le_refl _, rfl, Array.isEmpty_iff.1 ‹_›⟩
  · have hp : Pushed H b { b with tasks := b.tasks.push { body := b.block.toList }, block := #[] }
        { body := b.block.toList } := ⟨rfl, rfl, Nat.le_refl _, rfl, List.Subset.refl _, fun _ => .inl⟩
    refine ⟨hp.topGood hg hg.block.block hg.block.nodup ?_, ⟨?_, .refl _, .refl _⟩, rfl, rfl⟩
    · intro i hi
      refine ⟨hg.block.below i hi, fun hmem => ?_⟩
      exact (nodup_append.1 hg.nodup).2.2 i hmem i hi rfl
    · show (topEnv b).all ⊆ _
      rw [Env.settled, hp.env_all]
      exact .refl _

section Parallel

variable {ctx : Context} {scope : Scope} {binding : Binding} {it : Iteration}
  (hctx : InlinerOk H ctx.inline)
include hctx

theorem topRuns_parallelFor {body : Scope → Lower Scope} (hbody : BodyOk H body)
    (hs : ScopeOk H (topEnv b).settled scope) :
    TopRuns H b (parallelFor ctx scope binding it body) fun _ _ => True := by
  refine topRuns_flushSerial.bind fun _ b1 h1 hempty => ?_
  have hs1 : ScopeOk H (envOf b1.fields (topCtx b1).past []) scope := by
    refine hs.mono (Env.le_trans h1 ⟨?_, List.Subset.refl _, List.Subset.refl _⟩)
    show (topCtx b1).past ++ ([] ++ defsOf b1.block.toList) ⊆ (topCtx b1).past ++ []
    rw [hempty]
    exact List.Subset.refl _
  intro hg u b' k
  obtain ⟨⟨prologue, first, last, dims⟩, b2, h2, k2⟩ := bind_ok k
  obtain ⟨hpro, hfirst, hlast, hdims⟩ := (stepOk_loopBounds hctx).capture hs1 h2
  obtain ⟨index, b3, h3, k3⟩ := bind_ok k2
  obtain ⟨rfl, rfl⟩ := freshId_ok h3
  obtain ⟨stmts, b4, h4, k4⟩ := bind_ok k3
  have hd : envOf b2.fields (topCtx b1).past ([] ++ defsOf prologue)
      ≤ envOf b2.fields (topCtx b1).past (defsOf prologue ++ [(b2.nextId, Def.index)]) :=
    envOf_mono_here (subset_append_left _ _)
  have hpast : envOf b1.fields (topCtx b1).past [] ≤ envOf b2.fields (topCtx b1).past ([] ++ defsOf prologue) :=
    envOf_mono hpro.fields (List.Subset.refl _) (nil_subset _)
  have hclosed := loopBody_closed (b := { b2 with nextId := b2.nextId + 1 }) hbody (hs1.mono (Env.le_trans hpast hd))
    (mem_append_right _ (mem_singleton_self _)) (fun o ho => (hdims o ho).mono hd) h4
  cases k4
  have hfields : b1.fields ⊆ b4.fields := List.Subset.trans hpro.fields hclosed.fields
  have hp : ∀ t, Pushed H b1 { b4 with tasks := b4.tasks.push t } t := by
    refine fun t => ⟨?_, ?_, ?_, ?_, hfields, ?_⟩
    · rw [hclosed.tasks, hpro.tasks]
    · exact hclosed.same.trans (hpro.same.trans hempty)
    · exact Nat.le_trans hpro.nextId (Nat.le_trans (Nat.le_succ _) hclosed.nextId)
    · exact hclosed.ret.trans hpro.ret
    · exact fun f hf => (hclosed.host f hf).elim (hpro.host f) .inr
  have hlt : ∀ i ∈ idsOf stmts, b2.nextId < i ∧ i < b4.nextId := hclosed.fresh
  have hnext : b2.nextId < b4.nextId := hclosed.nextId
  have hle := envOf_mono_fields hclosed.fields (topCtx b1).past ([] ++ defsOf prologue)
  refine ⟨(hp _).topGood hg ⟨hpro.checked hclosed.fields, ⟨hfirst.mono hle, hlast.mono hle, bindingHint_eq⟩,
    hclosed.block⟩ ?_ ?_, ⟨?_, List.Subset.refl _, hfields⟩, (hp _).ret, trivial⟩
  · refine nodup_append.2 ⟨nodup_append.2 ⟨hpro.nodup, by simp, fun i hi j hj hij => ?_⟩,
      hclosed.nodup, fun i hi j hj hij => ?_⟩
    · rw [mem_singleton] at hj
      grind [hpro.fresh i hi]
    · rcases mem_append.1 hi with hi | hi
      · grind [hpro.fresh i hi, hlt j hj]
      · rw [mem_singleton] at hi
        grind [hlt j hj]
  · intro i hi
    have hi : b1.nextId ≤ i ∧ i < b4.nextId := by
      have := hpro.nextId
      rcases mem_append.1 hi with hi | hi
      · rcases mem_append.1 hi with hi | hi
        · grind [hpro.fresh i hi]
        · rw [mem_singleton] at hi
          grind
      · grind [hlt i hi]
    exact ⟨hi.2, fun hmem => absurd (hg.below i hmem) (Nat.not_lt.2 hi.1)⟩
  · show (topEnv b1).all ⊆ _
    rw [Env.settled, (hp _).env_all]
    show (topCtx b1).past ++ ([] ++ defsOf b1.block.toList) ⊆ (topCtx b1).past ++ []
    rw [hempty]
    exact List.Subset.refl _

theorem topRuns_unroll {top : Scope → Lower Scope} (hs : ScopeOk H (topEnv b).settled scope)
    (htop : ∀ b inner, ScopeOk H (topEnv b).settled inner → TopRuns H b (top inner) fun _ _ => True) :
    TopRuns H b (unroll ctx scope binding it span top) fun _ _ => True := by
  refine (TopRuns.ofRuns (stepOk_staticBounds hctx _ b (hs.mono Env.settled_le))).bind fun bounds b1 h1 _ => ?_
  extract_lets count
  split
  · exact TopRuns.fail
  · refine TopRuns.forM fun flat _ b2 h2 => ?_
    refine (TopRuns.ofRuns runs_bindIndex_const).bind fun inner b3 h3 hinner => ?_
    have hs3 := hs.mono (Env.le_trans h1 (Env.le_trans h2 h3))
    refine TopRuns.discardInLoop (htop { b3 with loops := .static :: b3.loops } inner ?_)
    exact hinner.scopeOk hs3 (Env.le_refl _)

end Parallel

/-! ## 4. The body of a kernel -/

section Body

variable {ctx : Context}

theorem topRuns_stmt (hctx : InlinerOk H ctx.inline) {x : Surface.Stmt}
    (hs : ScopeOk H (topEnv b).settled scope) :
    TopRuns H b (lowerStmt ctx scope x) fun b' s => ScopeAdds H (topEnv b').settled scope s :=
  TopRuns.ofRuns (stmtOk hctx scope x _ b (hs.mono Env.settled_le))

mutual

theorem topRuns_lowerTop (hctx : InlinerOk H ctx.inline) {b : Builder} :
    {scope : Scope} → (x : Surface.Stmt) →
    ScopeOk H (topEnv b).settled scope →
    TopRuns H b (lowerTop ctx scope false x) fun b' s => ScopeAdds H (topEnv b').settled scope s
  | scope, .forOf span binding iter body, hs => by
    unfold lowerTop
    refine (TopRuns.ofRuns runs_iteration).bind fun it b1 h1 _ => ?_
    split
    · refine (topRuns_unroll hctx (hs.mono h1) fun b' inner hinner => ?_).bind fun _ b2 _ _ => TopRuns.pure (.refl _ _)
      exact (topRuns_lowerTop hctx body hinner).imp fun _ _ _ _ => trivial
    · have hbody : BodyOk H fun inner => lowerStmt ctx inner body := fun inner => stmtOk hctx inner body
      exact (topRuns_parallelFor hctx hbody (hs.mono h1)).bind fun _ b2 _ _ => TopRuns.pure (.refl _ _)
  | scope, .block _ body, hs => by
    exact (topRuns_lowerTops hctx body hs).bind fun _ b1 _ _ => TopRuns.pure (.refl _ _)
  | scope, .return_ span value, hs => topRuns_stmt hctx hs
  | scope, .decl _ _ _ _, hs | scope, .function _ _, hs | scope, .ifElse _ _ _ _, hs | scope, .while_ _ _ _, hs
  | scope, .break_ _, hs | scope, .continue_ _, hs | scope, .assign _ _ _ _, hs | scope, .expr _ _, hs
  | scope, .empty _, hs => topRuns_stmt hctx hs

theorem topRuns_lowerTops (hctx : InlinerOk H ctx.inline) {b : Builder} :
    {scope : Scope} → (xs : List Surface.Stmt) →
    ScopeOk H (topEnv b).settled scope →
    TopRuns H b (lowerTops ctx scope false xs) fun b' s => ScopeAdds H (topEnv b').settled scope s
  | scope, [], hs => .pure (.refl _ _)
  | scope, x :: xs, hs => by
    unfold lowerTops
    refine (topRuns_lowerTop hctx x hs).bind fun s b1 h1 hadds => ?_
    refine TopRuns.imp (topRuns_lowerTops hctx xs (hadds.scopeOk (hs.mono h1) (Env.le_refl _)))
      fun b2 s' h2 hadds' => ?_
    exact hadds.trans hadds' h2

end

/-- The tasks and the open block of a kernel that has no result yet, whatever its result will be. -/
theorem TopGood.withRet (hg : TopGood H b) (hret : b.ret = none) :
    TopGood H { b with ret := some ty } := by
  have himp : ∀ past, (discipline H b.fields past b.ret).Implies (discipline H b.fields past (some ty)) := by
    intro past
    rw [hret]
    exact discipline_implies (.refl _) (.refl _) nofun
  refine ⟨Check.Implies.tasks himp hg.tasks, ⟨?_, hg.block.nodup, hg.block.below⟩, hg.nodup, hg.below, hg.fields⟩
  exact (himp _).block (.refl _) _ hg.block.block

/-- The result of the kernel is given where the type of the result becomes known. -/
theorem topGood_lowerReturn (hctx : InlinerOk H ctx.inline) {value : Option Expr}
    {u : Unit} (hg : TopGood H b) (hret : b.ret = none) (hs : ScopeOk H (topEnv b).settled scope)
    (h : lowerReturn ctx scope value span b = .ok u b') : TopGood H b' := by
  cases value with
  | none =>
    cases h
    exact hg
  | some x =>
    obtain ⟨l, b1, h1, k1⟩ := bind_ok h
    obtain ⟨⟨o, ty⟩, b2, h2, k2⟩ := bind_ok k1
    obtain ⟨i, b3, h3, k3⟩ := bind_ok k2
    have hvalue : TopRuns H b (do rvalue (← lowerExpr ctx scope x) span) fun b' y => Holds H (topEnv b') y.1 y.2 :=
      TopRuns.ofRuns (stepOk_rvalue (exprOk hctx x) _ b (hs.mono Env.settled_le))
    have hrun : (do rvalue (← lowerExpr ctx scope x) span : Lower (Operand × Ty)) b = .ok (o, ty) b2 := by
      show EStateM.bind _ _ b = _
      rw [EStateM.bind, h1]
      exact h2
    obtain ⟨hg2, -, hret2, ho⟩ := hvalue hg _ _ hrun
    have hop : OpOk H (topEnv { b2 with ret := some ty }) (some ty) (.ret o ty) := by
      refine ⟨⟨?_, nofun, nofun, nofun⟩, trivial, ?_, fun ht => (ho.typed ht).mono (Env.here_subset _), ?_, trivial⟩
      · intro y hy
        rw [mem_singleton.1 hy]
        exact ho.visible
      · intro hf t ht
        rw [mem_singleton.1 ht]
        exact ho.flat hf
      · intro v t hv
        cases hv
        rfl
    obtain ⟨rfl, rfl⟩ := emit_ok h3
    cases k3
    exact (TopRuns.ofRuns (Runs.emit hop) (hg2.withRet (hret2.trans hret)) _ _ rfl).1

theorem lowerTop_last (ctx : Context) (scope : Scope) (x : Surface.Stmt) :
    lowerTop ctx scope true x = lowerTop ctx scope false x ∨ ∃ span value, x = .return_ span value := by
  cases x with
  | return_ span value => exact .inr ⟨span, value, rfl⟩
  | _ => exact .inl (by simp only [lowerTop])

theorem topGood_body (hctx : InlinerOk H ctx.inline) {s : Scope} {xs : List Surface.Stmt}
    (hg : TopGood H b) (hret : b.ret = none) (hs : ScopeOk H (topEnv b).settled scope)
    (h : lowerTops ctx scope true xs b = .ok s b') : TopGood H b' := by
  induction xs generalizing scope b with
  | nil =>
    cases h
    exact hg
  | cons x xs ih =>
    obtain ⟨inner, b1, h1, k⟩ := bind_ok h
    have hother : lowerTop ctx scope false x b = .ok inner b1 → TopGood H b' := by
      intro h1
      obtain ⟨hg1, he, hret1, hadds⟩ := topRuns_lowerTop hctx x hs hg _ _ h1
      exact ih hg1 (hret1.trans hret) (hadds.scopeOk (hs.mono he) (Env.le_refl _)) k
    cases xs with
    | cons y ys => exact hother h1
    | nil =>
      rcases lowerTop_last ctx scope x with heq | ⟨span, value, rfl⟩
      · exact hother (heq ▸ h1)
      · obtain ⟨u, b2, h2, k2⟩ := bind_ok h1
        cases k2
        cases k
        exact topGood_lowerReturn hctx hg hret hs h2

end Body

/-! ## 5. Kernels -/

theorem read?_not_struct {text : String} (h : Ty.read? text = some ty) : ty.isStruct = false := by
  unfold Ty.read? at h
  extract_lets cs at h
  split at h
  · cases h
    rfl
  · split at h
    · unfold Ty.readVector? at h
      split at h
      · split at h
        · simp only [Option.bind_eq_bind, Option.bind_eq_some_iff, Option.pure_def, Option.some.injEq] at h
          obtain ⟨s, -, n, -, rfl⟩ := h
          rfl
        · cases h
      · cases h
    · simp only [Ty.readMatrix?, Option.bind_eq_bind, Option.bind_eq_some_iff, Option.pure_def, Option.some.injEq] at h
      obtain ⟨_, -, _, -, _, -, _, -, _, -, _, -, rfl⟩ := h
      rfl

theorem paramTy_ok {a : Option Name} (h : paramTy a b = .ok ty b') :
    b' = b ∧ ty.isStruct = false := by
  cases a with
  | none =>
    cases h
    exact ⟨rfl, rfl⟩
  | some a =>
    simp only [paramTy] at h
    cases hty : Ty.read? a.text with
    | none =>
      rw [hty] at h
      cases h
    | some t =>
      rw [hty] at h
      cases h
      exact ⟨rfl, read?_not_struct hty⟩

def argumentsFrom (word : Nat) : List IR.Param → List (Nat × Ty)
  | [] => []
  | p :: ps => (word, p.ty) :: argumentsFrom (word + p.ty.size) ps

theorem bindParams_ok (ht : ∀ p ∈ templates, ValueOk H e p.2) {inner : Scope} {word : Nat}
    {params : List IR.Param} (hs : ScopeOk H e scope)
    (h : bindParams templates scope word ps b = .ok (params, inner) b')
    (harg : ∀ x ∈ argumentsFrom word params, H.arg x.1 x.2) : b' = b ∧ ScopeOk H e inner := by
  induction ps generalizing scope word params with
  | nil =>
    cases h
    exact ⟨rfl, hs⟩
  | cons p ps ih =>
    unfold bindParams at h
    extract_lets name at h
    split at h
    · cases hv : templates.lookup name with
      | none =>
        rw [hv] at h
        cases h
      | some v =>
        rw [hv] at h
        obtain ⟨l, r, heq, -⟩ := lookup_eq_some_iff.1 hv
        have hmem : (name, v) ∈ templates := heq ▸ mem_append_right _ (mem_cons_self ..)
        exact ih (hs.insert (ht _ hmem) name) h harg
    · obtain ⟨ty, b1, h1, k1⟩ := bind_ok h
      obtain ⟨rfl, hty⟩ := paramTy_ok h1
      obtain ⟨⟨rest, s⟩, b2, h2, k2⟩ := bind_ok k1
      cases k2
      have hv : ValueOk H e (.arg word ty) := ⟨fun _ => hty, harg _ (mem_cons_self ..)⟩
      exact ih (hs.insert hv name) h2 fun x hx => harg x (mem_cons_of_mem _ hx)

theorem topGood_start : TopGood H {} :=
  ⟨trivial, ⟨trivial, nodup_nil, nofun⟩, nodup_nil, nofun, nofun⟩

theorem scopeOk_globals (hs : ScopeOk H e scope) : ScopeOk H e scope.globals :=
  ⟨fun p hp => hs.table p (mem_of_mem_filter hp), nofun⟩

/-- What the state at the end of lowering is good for: the kernel passes the check, no two of its
statements and loops have the same id, and its fields are those of the host. -/
theorem discipline_lower {r : Routine} {k : Kernel} (hs : ScopeOk H .empty scope)
    (ht : ∀ p ∈ templates, ValueOk H .empty p.2)
    (harg : ∀ x ∈ argumentsFrom 0 k.params, H.arg x.1 x.2)
    (h : lower r scope templates settings = .ok k) :
    Check.tasks (fun past => discipline H k.fields past k.ret) [] k.tasks ∧ (k.tasks.flatMap Task.ids).Nodup
      ∧ ∀ f ∈ k.fields, H.field f := by
  unfold lower at h
  split at h
  · rename_i k0 b' hrun
    cases h
    obtain ⟨⟨params, inner⟩, b1, h1, k1⟩ := bind_ok hrun
    obtain ⟨s, b2, h2, k2⟩ := bind_ok k1
    obtain ⟨u, b3, h3, k3⟩ := bind_ok k2
    have hparams : k.params = params := by cases k3; rfl
    obtain ⟨rfl, hinner⟩ := bindParams_ok ht hs h1 (hparams ▸ harg)
    have hg2 := topGood_body (inlinerOk (scopeOk_globals hs) _) topGood_start rfl (hinner.mono (Env.empty_le _)) h2
    obtain ⟨hg3, -, -, -⟩ := topRuns_flushSerial hg2 _ _ h3
    cases k3
    exact ⟨hg3.tasks, (nodup_append.1 hg3.nodup).1, hg3.fields⟩
  · cases h

end ArrayKernel.Lowering
