import ArrayKernel.Proofs.Meaning.Statement

/-!
# Loops over ranges keep their meaning

A loop in one thread is a loop of the representation; one that is unrolled is the sequence of its
iterations, out of which nothing jumps.
-/

namespace ArrayKernel.Meaning

open IR Lowering Surface List

variable {zero : ByZero} {L : Layout} {scope : Scope} {ctx : Context}
  {call? : Option (String × List Expr)} {args : List Expr} {e iter : Expr} {unrolled : Bool}
  {b b' : Builder} {kinds loops : List LoopKind} {fuel : Nat} {ρ : Env} {σ : Store} {i j : Int32}
  {span : Span} {first last o : Operand}

/-! ## 1. Ranges -/

theorem spaceOf_of_rangeArgs (h : rangeArgs? call? = some args) :
    (call?.bind fun (path, args) => Iteration.spaceOf path args span)
      = some (if args.isEmpty || 2 < args.length then failAt span
        (.arityMismatch "range" 2 args.length) else pure (.range args)) := by
  cases call? with
  | none => cases h
  | some c =>
    obtain ⟨path, args'⟩ := c
    unfold rangeArgs? at h
    simp only at h
    split at h
    · rename_i hpath
      cases h
      rcases hpath with rfl | rfl <;> rfl
    · cases h

theorem finish_of_rangeArgs
    {refused : Lower Iteration} (hargs : rangeArgs? call? = some args) :
    (match call?.bind fun (path, args) => Iteration.spaceOf path args span with
      | some space => (do return { unrolled, space := ← space, span } : Lower Iteration)
      | none => refused)
      = if args.isEmpty || 2 < args.length then failAt span (.arityMismatch "range" 2 args.length)
        else pure { unrolled, space := .range args, span } := by
  rw [spaceOf_of_rangeArgs hargs]
  by_cases hlen : (args.isEmpty || 2 < args.length)
  · simp only [if_pos hlen]
    rfl
  · simp only [if_neg hlen]
    rfl

theorem ofExpr_of_loopOver (hloop : loopOver? iter = some (unrolled, args)) :
    Iteration.ofExpr iter =
      if args.isEmpty || 2 < args.length then failAt iter.span (.arityMismatch "range" 2 args.length)
      else pure { unrolled, space := .range args, span := iter.span } := by
  by_cases hstatic : ∃ inner, Iteration.callOf? iter = some ("static", [inner])
      ∨ Iteration.callOf? iter = some ("ti.static", [inner])
  · obtain ⟨inner, hcall⟩ := hstatic
    have hunrolled : loopOver? iter = (rangeArgs? (Iteration.callOf? inner)).map (true, ·) := by
      unfold loopOver?
      rcases hcall with hcall | hcall <;> rw [hcall] <;> rfl
    obtain ⟨_, hargs, heq⟩ := Option.map_eq_some_iff.1 (hunrolled.symm.trans hloop)
    cases heq
    unfold Iteration.ofExpr
    rcases hcall with hcall | hcall <;> rw [hcall] <;> exact finish_of_rangeArgs hargs
  · have hrolled : loopOver? iter = (rangeArgs? (Iteration.callOf? iter)).map (false, ·) := by
      unfold loopOver?
      split
      · exact absurd ⟨_, .inl ‹_›⟩ hstatic
      · exact absurd ⟨_, .inr ‹_›⟩ hstatic
      · rfl
    obtain ⟨_, hargs, heq⟩ := Option.map_eq_some_iff.1 (hrolled.symm.trans hloop)
    cases heq
    unfold Iteration.ofExpr
    split
    · exact absurd ⟨_, .inl ‹_›⟩ hstatic
    · exact absurd ⟨_, .inr ‹_›⟩ hstatic
    · exact finish_of_rangeArgs hargs

theorem iteration_of_loopOver {it : Iteration}
    (hloop : loopOver? iter = some (unrolled, args)) (h : Iteration.ofExpr iter b = .ok it b') :
    it.unrolled = unrolled ∧ it.space = .range args ∧ b' = b
      ∧ ((∃ last, args = [last]) ∨ ∃ first last, args = [first, last]) := by
  rw [ofExpr_of_loopOver hloop] at h
  match args with
  | [] => cases h
  | [last] =>
    cases h
    exact ⟨rfl, rfl, rfl, .inl ⟨last, rfl⟩⟩
  | [first, last] =>
    cases h
    exact ⟨rfl, rfl, rfl, .inr ⟨first, last, rfl⟩⟩
  | a1 :: a2 :: a3 :: rest =>
    cases h

theorem bindIndex_single {binding : Binding} {x : String} (hx : loopVar? binding = some x)
    : bindIndex binding [o] scope span = pure (scope.insert x (indexValueOf o)) := by
  match binding with
  | .name n =>
    cases hx
    rfl
  | .names [n] =>
    cases hx
    rfl
  | .names [] | .names (_ :: _ :: _) => cases hx

def KeepsBody (zero : ByZero) (L : Layout) (scope : Scope) (x : String) (body : Scope → Lower Scope)
    (r : Nat → Env → Result Env) : Prop :=
  ∀ loc : Loc, Keeps zero ((x, loc) :: L) (scope.insert x loc.value)
    (body (scope.insert x loc.value)) r (Within ((x, loc) :: L))

def overRange (zero : ByZero) (args : List Expr) (x : String) (r : Nat → Env → Result Env)
    (fuel : Nat) (ρ : Env) : Result Env :=
  (bounds zero ρ args).bind fun (first, last) =>
    ended (rangeLoop (fun i ρ => leave ρ (r fuel ((x, i) :: ρ))) (rangeCount first last) first ρ)

variable {x : String} {args : List Expr} {binding : Binding} {it : Iteration}
  {body : Scope → Lower Scope} {r : Nat → Env → Result Env}

theorem iteration_related {loc : Loc} {code : List IR.Stmt}
    (hsim : Simulates zero ((x, loc) :: L) kinds r code (Within ((x, loc) :: L)))
    (ha : Agrees L ρ σ) (hi : loc.read σ = some i) :
    Related (fun out ρ σ => Allowed kinds out ∧ Agrees L ρ σ) (leave ρ (r fuel ((x, i) :: ρ)))
      (runAll zero fuel code σ) := by
  refine leave_related ha.length_eq.symm ((hsim fuel ((x, i) :: ρ) σ (.cons ⟨rfl, hi⟩ ha)).imp ?_)
  rintro out ρ' σ' ⟨hallowed, ext, hext⟩
  refine ⟨hallowed, ext ++ [(x, loc)], ?_⟩
  rwa [append_assoc]

/-! ## 2. Loops in one thread -/

def HoldsBounds (zero : ByZero) (args : List Expr) (first last : Operand) : Assertion :=
  fun ρ σ => ∃ i j, bounds zero ρ args = some (i, j) ∧ σ.value first = some i ∧ σ.value last = some j

theorem intOperand_leads {l : Lowered} {b1 : Builder} (he : integerExpr L.names e)
    (hL : L.Fits b.nextId scope) (hl : lowerExpr ctx scope e b = .ok l b1)
    (h : intOperand l span b1 = .ok o b') :
    IsOperand b'.nextId o ∧ Leads zero (Agrees L) b b' (Holds (fun ρ => eval zero ρ e) fun σ => σ.value o) := by
  obtain ⟨y, b2, h2, k2⟩ := bind_ok h
  obtain ⟨o', rfl, ho, hleads⟩ := (computes_lowerExpr e he).rvalue hL hl h2
  cases k2
  exact ⟨ho, hleads⟩

/-- A range that goes to a bound, or from one bound to another. -/
structure RangeArgs (L : Layout) (args : List Expr) : Prop where
  integers : args.all (integerExpr L.names)
  arity : (∃ last, args = [last]) ∨ ∃ first last, args = [first, last]

theorem loopBounds_leads {dims : List Operand} (hargs : RangeArgs L args)
    (hL : L.Fits b.nextId scope)
    (h : loopBounds ctx scope (.range args) b = .ok (first, last, dims) b') :
    dims = [] ∧ Leads zero (Agrees L) b b' (HoldsBounds zero args first last) := by
  obtain ⟨hargs, ⟨e, rfl⟩ | ⟨e1, e2, rfl⟩⟩ := hargs
  · simp only [all_cons, all_nil, Bool.and_true] at hargs
    simp only [loopBounds, mapM_cons, bind_assoc] at h
    obtain ⟨l, b1, h1, k1⟩ := bind_ok h
    obtain ⟨o, b2, h2, k2⟩ := bind_ok k1
    cases k2
    obtain ⟨-, hleads⟩ := intOperand_leads hargs hL h1 h2
    refine ⟨rfl, hleads.imp (fun _ _ hp => hp) ?_⟩
    rintro ρ σ ⟨j, he, hj⟩
    exact ⟨0, j, by simp only [bounds, he, Option.map_some], rfl, hj⟩
  · simp only [all_cons, all_nil, Bool.and_true, Bool.and_eq_true] at hargs
    simp only [loopBounds, mapM_cons, bind_assoc] at h
    obtain ⟨l1, b1, h1, k1⟩ := bind_ok h
    obtain ⟨o1, b2, h2, k2⟩ := bind_ok k1
    obtain ⟨ho1, hfirst⟩ := intOperand_leads hargs.1 hL h1 h2
    obtain ⟨l2, b3, h3, k3⟩ := bind_ok k2
    obtain ⟨o2, b4, h4, k4⟩ := bind_ok k3
    cases k4
    obtain ⟨-, hlast⟩ := intOperand_leads hargs.2 (hL.mono hfirst.nextId) h3 h4
    -- the first bound is still there when the last one has been computed
    have hboth := (hfirst.keep hL.stable).trans
      ((hlast.frame (.stable ho1)).imp (fun ρ σ hp => ⟨hp.2, hp.1⟩) fun _ _ hq => hq)
    refine ⟨rfl, hboth.imp (fun _ _ hp => hp) ?_⟩
    rintro ρ σ ⟨⟨j, he2, hj⟩, i, he1, hi⟩
    exact ⟨i, j, by simp only [bounds, he1, he2, Option.bind_some, Option.map_some], hi, hj⟩

/-- The loop of the representation runs hand in hand with the loop of the language. -/
theorem rangeFor_related {index : StmtId} {stmts : List IR.Stmt} {hint : String} {n : StmtId}
    (hL : L.Fits n scope) (hn : n ≤ index)
    (hbody : Simulates zero ((x, .temp index) :: L) kinds r stmts (Within ((x, .temp index) :: L)))
    (ha : Agrees L ρ σ) (hb : HoldsBounds zero args first last ρ σ) :
    Related (fun out ρ σ => Allowed loops out ∧ Agrees L ρ σ) (overRange zero args x r fuel ρ)
      (runAll zero fuel [.rangeFor index first last stmts hint] σ) := by
  obtain ⟨i, j, hbounds, hi, hj⟩ := hb
  rw [runAll_singleton, run]
  simp only [overRange, hbounds, hi, hj]
  refine .ended (rangeLoop_related (fun k ρ σ ha => ?_) _ _ ha) fun _ _ h => ⟨trivial, h⟩
  have ha' : Agrees L ρ (σ.setValue index k) := ha.same hL.below (.setValue σ hn k)
  exact (iteration_related hbody ha' (by simp [Loc.read])).imp fun _ _ _ h => h.2

theorem serialFor_keeps (hargs : RangeArgs L args) (hspace : it.space = .range args)
    (hx : loopVar? binding = some x) (hbody : KeepsBody zero L scope x body r) :
    Keeps zero L scope (serialFor ctx scope binding it body) (overRange zero args x r) (Agrees L) := by
  intro b b' u hL h
  unfold serialFor at h
  rw [hspace] at h
  obtain ⟨⟨first, last, dims⟩, b1, h1, k1⟩ := bind_ok h
  obtain ⟨rfl, hbounds⟩ := loopBounds_leads hargs hL h1
  obtain ⟨index, b2, h2, k2⟩ := bind_ok k1
  obtain ⟨rfl, rfl⟩ := freshId_ok h2
  obtain ⟨stmts, b3, h3, k3⟩ := bind_ok k2
  obtain rfl := push_ok k3
  obtain ⟨⟨stmts', s⟩, b4, h4, hr⟩ := bind_ok h3
  cases hr
  simp only [unflatten, pure_bind, bindIndex_single hx] at h4
  have hL1 : L.Fits b1.nextId scope := hL.mono hbounds.nextId
  have hfits : Layout.Fits ((x, .temp b1.nextId) :: L) (b1.nextId + 1) (scope.insert x (Loc.temp b1.nextId).value) :=
    (hL1.mono (Nat.le_succ _)).push x (Nat.lt_succ_self _) nofun
  obtain ⟨he, hsim⟩ := (hbody (.temp b1.nextId)).captureInLoop hfits h4
  have hemits : Emits b1 { b3 with block := b3.block.push (.rangeFor b1.nextId first last stmts (bindingHint binding)) }
      [.rangeFor b1.nextId first last stmts (bindingHint binding)] := by
    refine ⟨?_, Nat.le_trans (Nat.le_succ _) he.nextId, he.loops⟩
    have hblock : b3.block.toList = b1.block.toList := by simpa using he.block
    simp [hblock]
  exact hbounds.simulates hL hemits fun fuel ρ σ ha hb => rangeFor_related hL1 (Nat.le_refl _) hsim ha hb

/-! ## 3. Unrolled loops -/

theorem lowerIntConst_leads {what : String} {v : Int} (he : integerExpr L.names e)
    (hL : L.Fits b.nextId scope) (h : lowerIntConst ctx scope what e b = .ok v b') :
    ∃ w : Int32, v = w.toInt ∧ Leads zero (Agrees L) b b' fun ρ _ => eval zero ρ e = some w := by
  obtain ⟨l, b1, h1, k1⟩ := bind_ok h
  obtain ⟨loc, hl, -, hleads⟩ := computes_lowerExpr e he hL h1
  have hconst : ∀ w, loc = .const w → Leads zero (Agrees L) b b1 fun ρ _ => eval zero ρ e = some w := by
    rintro w rfl
    refine hleads.imp (fun _ _ hp => hp) ?_
    rintro ρ σ ⟨u, hu, hw⟩
    cases hw
    exact hu
  cases hl with
  | static w =>
    cases k1
    exact ⟨w, rfl, hconst w rfl⟩
  | folded w =>
    cases k1
    exact ⟨w, rfl, hconst w rfl⟩
  | value id | place id => cases k1

theorem staticBounds_leads {bs : List (Int × Int)} (hargs : RangeArgs L args)
    (hL : L.Fits b.nextId scope) (h : staticBounds ctx scope (.range args) b = .ok bs b') :
    ∃ i j : Int32, bs = [(i.toInt, j.toInt)] ∧ Leads zero (Agrees L) b b' fun ρ _ =>
      bounds zero ρ args = some (i, j) := by
  obtain ⟨hargs, ⟨e, rfl⟩ | ⟨e1, e2, rfl⟩⟩ := hargs
  · simp only [all_cons, all_nil, Bool.and_true] at hargs
    obtain ⟨v, b1, h1, k1⟩ := bind_ok h
    cases k1
    obtain ⟨j, rfl, hlast⟩ := lowerIntConst_leads hargs hL h1
    refine ⟨0, j, rfl, hlast.imp (fun _ _ hp => hp) fun ρ _ he => ?_⟩
    simp only [bounds, he, Option.map_some]
  · simp only [all_cons, all_nil, Bool.and_true, Bool.and_eq_true] at hargs
    obtain ⟨v1, b1, h1, k1⟩ := bind_ok h
    obtain ⟨i, rfl, hfirst⟩ := lowerIntConst_leads hargs.1 hL h1
    obtain ⟨v2, b2, h2, k2⟩ := bind_ok k1
    cases k2
    obtain ⟨j, rfl, hlast⟩ := lowerIntConst_leads hargs.2 (hL.mono hfirst.nextId) h2
    have hboth : Leads zero (Agrees L) b b' fun ρ _ => eval zero ρ e2 = some j ∧ eval zero ρ e1 = some i :=
      (hfirst.keep hL.stable).trans ((hlast.frame fun _ _ _ _ he => he).imp
        (fun ρ σ hp => ⟨hp.2, hp.1⟩) fun _ _ hq => hq)
    refine ⟨i, j, rfl, hboth.imp (fun _ _ hp => hp) fun ρ _ he => ?_⟩
    simp only [bounds, he.1, he.2, Option.bind_some, Option.map_some]

theorem extent_eq : extent (i.toInt, j.toInt) = rangeCount i j := by
  have hi := i.toInt_lt
  have hi' := i.le_toInt
  have hj := j.toInt_lt
  have hj' := j.le_toInt
  unfold extent rangeCount
  rw [Int.bmod_eq_of_le (by omega) (by omega)]

theorem iterations_eq : iterations [(i.toInt, j.toInt)] = rangeCount i j := by
  have hi' := i.le_toInt
  have hj := j.toInt_lt
  have hlt : rangeCount i j < 2 ^ 64 := by
    unfold rangeCount
    omega
  simp only [iterations, map_cons, map_nil, foldl_cons, foldl_nil, extent_eq]
  omega

theorem indexAt_eq {k : Nat} (hk : k < rangeCount i j) :
    (indexAt [(i.toInt, j.toInt)] k).1.map Operand.int = [.const (.i32 (i + .ofNat k))] := by
  have hmod : k % max (rangeCount i j) 1 = k := Nat.mod_eq_of_lt (by omega)
  simp only [indexAt, extent_eq, hmod, map_cons, Operand.int, Int32.ofInt_add, Int32.ofInt_toInt]
  rfl

theorem normal_of_allowed {out : Outcome} (h : Allowed (.static :: loops) out) : out = .normal := by
  cases out with
  | normal => rfl
  | broke => cases h
  | continued => rcases h with h | h <;> cases h

theorem unrolled_related {I : Env → Store → Prop} {R : Outcome → Env → Store → Prop}
    {y : Result Env} {z : Result Store} {k : Env → Option Env} {next : Store → Result Store}
    (h : Related (fun out ρ σ => out = .normal ∧ I ρ σ) y z)
    (hnext : ∀ ρ σ, I ρ σ → Related R (ended (k ρ)) (next σ)) :
    Related R (ended (y.bind fun (ρ, out) => if out = .broke then some ρ else k ρ)) (andThen z next) := by
  cases h with
  | none => exact .none
  | @some p q hpq =>
    obtain ⟨ρ, out⟩ := p
    obtain ⟨σ, out'⟩ := q
    obtain ⟨hout, hnormal, hI⟩ : out = out' ∧ out = .normal ∧ I ρ σ := hpq
    subst hnormal
    subst hout
    simpa using hnext ρ σ hI

theorem unrolled_keeps (hx : loopVar? binding = some x) (hbody : KeepsBody zero L scope x body r)
    (n start : Nat) (hn : start + n ≤ rangeCount i j) : Keeps zero L scope
      ((List.range' start n).forM fun flat => do
        let inner ← bindIndex binding ((indexAt [(i.toInt, j.toInt)] flat).1.map Operand.int) scope span
        Functor.discard <| inLoop .static (body inner))
      (fun fuel ρ => ended (rangeLoop (fun i ρ => leave ρ (r fuel ((x, i) :: ρ))) n (i + .ofNat start) ρ))
      (Agrees L) := by
  induction n generalizing start with
  | zero =>
    intro b b' u hL h
    cases h
    exact ⟨[], .refl _, fun fuel ρ σ ha => .done ⟨trivial, ha⟩⟩
  | succ n ih =>
    intro b b' u hL h
    obtain ⟨_, b1, h1, k1⟩ := bind_ok h
    simp only [indexAt_eq (show start < rangeCount i j by omega), bindIndex_single hx] at h1
    obtain ⟨_, h1⟩ := discard_ok h1
    obtain ⟨code, he, hsim⟩ := (hbody (.const (i + .ofNat start))).inLoop (hL.push x trivial nofun) h1
    obtain ⟨code', he', hsim'⟩ := ih (start + 1) (by omega) (hL.mono he.nextId) k1
    refine ⟨code ++ code', he.trans he', fun fuel ρ σ ha => ?_⟩
    have hnext : i + Int32.ofNat start + 1 = i + .ofNat (start + 1) := by
      rw [Int32.ofNat_add, Int32.add_assoc]
      rfl
    simp only [runAll_append, rangeLoop, hnext]
    refine unrolled_related (I := Agrees L) ((iteration_related hsim ha rfl).imp ?_) fun ρ σ ha => ?_
    · exact fun out ρ σ h => ⟨normal_of_allowed h.1, h.2⟩
    · rw [← he.loops]
      exact hsim' fuel ρ σ ha

theorem unroll_keeps (hargs : RangeArgs L args) (hspace : it.space = .range args)
    (hx : loopVar? binding = some x) (hbody : KeepsBody zero L scope x body r) :
    Keeps zero L scope (unroll ctx scope binding it span body) (overRange zero args x r) (Agrees L) := by
  intro b b' u hL h
  unfold unroll at h
  rw [hspace] at h
  obtain ⟨bs, b1, h1, k1⟩ := bind_ok h
  obtain ⟨i, j, rfl, hbounds⟩ := staticBounds_leads hargs hL h1
  rw [iterations_eq] at k1
  by_cases hlimit : ctx.settings.unrollLimit < rangeCount i j
  · simp only [if_pos hlimit] at k1
    cases k1
  · simp only [if_neg hlimit, range_eq_range'] at k1
    obtain ⟨code, he, hsim⟩ :=
      unrolled_keeps hx hbody (rangeCount i j) 0 (by omega) (hL.mono hbounds.nextId) k1
    refine hbounds.simulates hL he fun fuel ρ σ ha hij => ?_
    have hrun := hsim fuel ρ σ ha
    rw [hbounds.loops] at hrun
    have hfirst : i + Int32.ofNat 0 = i := Int32.add_zero i
    simpa only [overRange, hij, Option.bind_some, hfirst] using hrun

end ArrayKernel.Meaning
