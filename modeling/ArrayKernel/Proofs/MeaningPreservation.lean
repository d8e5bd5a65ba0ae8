import ArrayKernel.Compile
import ArrayKernel.Proofs.Meaning.Iteration

/-!
# Lowering keeps the meaning of programs on integers

One run ends if and only if the other does, and then every variable has its value where lowering has
put it. The proof goes by recursion on the statement, for every amount of fuel.
-/

namespace ArrayKernel.Meaning

open IR Lowering Surface

variable {zero : ByZero} {L : Layout} {scope scope' : Scope} {ctx : Context} {b b' : Builder}
  {r : Nat → Env → Result Env} {loops : List LoopKind} {code : List IR.Stmt} {Q : Assertion}
  {ρ : Env} {σ : Store} {out : Outcome}

/-! ## 1. Statements with statements inside -/

theorem const_truthy (v : Int32) : (Literal.i32 v).truthy = decide (v ≠ 0) := by
  by_cases h : v = 0 <;> simp [Literal.truthy, h]

section Branches

variable {e : Expr} {yes no : Lower Scope} {r1 r2 : Nat → Env → Result Env}

theorem ifElse_preserves (he : integerExpr L.names e) (hyes : Keeps zero L scope yes r1 (Agrees L))
    (hno : Keeps zero L scope no r2 (Agrees L)) (hL : L.Fits b.nextId scope)
    (h : (do lowerBranches (← lowerCondition ctx scope e) yes no; return scope) b = .ok scope' b') :
    Preserves zero L []
      (fun fuel ρ => (eval zero ρ e).bind fun v => if v ≠ 0 then r1 fuel ρ else r2 fuel ρ) b b' scope' := by
  obtain ⟨c, b1, h1, k1⟩ := bind_ok h
  obtain ⟨hc, hleads⟩ := lowerCondition_leads zero he hL h1
  have hL1 := hL.mono hleads.nextId
  have hloops : b1.loops = b.loops := hleads.loops
  obtain ⟨_, b2, h2, k2⟩ := bind_ok k1
  cases k2
  cases hc with
  | const v =>
    simp only [lowerBranches, Operand.const?, const_truthy, decide_eq_true_eq] at h2
    obtain ⟨_, h2⟩ := discard_ok h2
    by_cases hv : v = 0
    · rw [if_neg (by simp [hv])] at h2
      obtain ⟨code, hemits, hsim⟩ := hno hL1 h2
      refine .keep hL (hleads.simulates hL hemits fun fuel ρ σ ha hcond => ?_)
      exact chosen_related (hloops ▸ hsim) (fun fuel ρ => if_neg (by simp [hv])) ha hcond
    · rw [if_pos hv] at h2
      obtain ⟨code, hemits, hsim⟩ := hyes hL1 h2
      refine .keep hL (hleads.simulates hL hemits fun fuel ρ σ ha hcond => ?_)
      exact chosen_related (hloops ▸ hsim) (fun fuel ρ => if_pos hv) ha hcond
  | stmt hid =>
    obtain ⟨⟨code, _⟩, b3, h3, k3⟩ := bind_ok h2
    obtain ⟨hemits, hsim⟩ := hyes.capture hL1 h3
    obtain ⟨⟨code', _⟩, b4, h4, k4⟩ := bind_ok k3
    obtain ⟨hemits', hsim'⟩ := hno.capture (hL1.mono hemits.nextId) h4
    obtain ⟨i, b5, h5, h6⟩ := bind_ok k4
    refine .keep hL (hleads.simulates hL ((hemits.trans hemits').trans (.push h5 h6)) fun fuel ρ σ ha hcond => ?_)
    exact ifElse_related (hloops ▸ hsim) (hloops ▸ hemits.loops ▸ hsim') ha hcond

theorem while_preserves (he : integerExpr L.names e)
    (hbody : Keeps zero L scope yes r1 (Agrees L)) (hL : L.Fits b.nextId scope)
    (h : (do lowerWhile (lowerCondition ctx scope e) yes; return scope) b = .ok scope' b') :
    Preserves zero L []
      (fun fuel ρ =>
        ended (whileLoop (fun ρ => (eval zero ρ e).map fun v => (ρ, decide (v ≠ 0))) (r1 fuel) fuel ρ))
      b b' scope' := by
  obtain ⟨_, b2, h2, k2⟩ := bind_ok h
  cases k2
  obtain ⟨⟨condBody, c⟩, b1, h1, k1⟩ := bind_ok h2
  obtain ⟨b0, h0, rfl, rfl⟩ := captureInto_ok h1
  obtain ⟨hc, hleads⟩ := lowerCondition_leads zero (b := { b with block := #[] }) he hL h0
  obtain ⟨hcarries, hemits⟩ := hleads.captured
  by_cases hfalse : c = .const (.i32 0)
  · subst hfalse
    cases k1
    refine .keep hL ⟨[], ⟨hemits.block, hemits.nextId, hemits.loops⟩, fun fuel ρ σ ha => ?_⟩
    obtain ⟨σ', -, -, v, hv, hzero⟩ := hcarries fuel ρ σ ha
    cases hzero
    have hdone : whileLoop (fun ρ => (eval zero ρ e).map fun v => (ρ, decide (v ≠ 0))) (r1 fuel) fuel ρ = some ρ :=
      whileLoop_of_false (by simp [hv]) fuel
    simp only [hdone]
    exact .done ⟨trivial, ha⟩
  · have hgo : c.const?.any (!·.truthy) = false := by
      cases hc with
      | const v =>
        have hv : v ≠ 0 := fun hv => hfalse (by rw [hv])
        simp [Operand.const?, const_truthy, hv]
      | stmt hid => rfl
    simp only [hgo] at k1
    obtain ⟨⟨stmts, _⟩, b3, h3, k3⟩ := bind_ok k1
    obtain ⟨hemits2, hsim⟩ := hbody.captureInLoop (hL.mono hemits.nextId) h3
    obtain ⟨i, b4, h4, h5⟩ := bind_ok k3
    exact .keep hL
      ⟨_, (hemits.trans hemits2).trans (.push h4 h5), fun fuel ρ σ ha => while_related hL hcarries hsim fuel ha⟩

end Branches

theorem Keeps.preserves {α : Type} {m : Lower α} (h : Keeps zero L scope m r (Agrees L))
    (hL : L.Fits b.nextId scope) (hm : (m >>= fun _ => pure scope) b = .ok scope' b') :
    Preserves zero L [] r b b' scope' := by
  obtain ⟨_, b1, h1, k1⟩ := bind_ok hm
  cases k1
  exact .keep hL (h hL h1)

theorem forOf_preserves {binding : Binding} {iter : Expr} {body : Surface.Stmt} {span : Span}
    {unrolled : Bool} {args : List Expr} {x : String}
    (hloop : loopOver? iter = some (unrolled, args)) (hx : loopVar? binding = some x)
    (hargs : args.all (integerExpr L.names))
    (hbody : KeepsBody zero L scope x (fun inner => lowerStmt ctx inner body) r)
    (hL : L.Fits b.nextId scope)
    (h : lowerStmt ctx scope (.forOf span binding iter body) b = .ok scope' b') :
    Preserves zero L [] (overRange zero args x r) b b' scope' := by
  obtain ⟨it, b1, h1, k1⟩ := bind_ok h
  obtain ⟨hunrolled, hspace, rfl, harity⟩ := iteration_of_loopOver hloop h1
  rw [hunrolled] at k1
  cases unrolled with
  | true => exact (unroll_keeps ⟨hargs, harity⟩ hspace hx hbody).preserves hL k1
  | false => exact (serialFor_keeps ⟨hargs, harity⟩ hspace hx hbody).preserves hL k1

/-! ## 2. All statements -/

theorem Preserves.within {declared : List String} {m : Lower Scope}
    (h : ∀ ⦃b b' scope'⦄, L.Fits b.nextId scope → m b = .ok scope' b' → Preserves zero L declared r b b' scope') :
    Keeps zero L scope m r (Within L) := by
  intro b b' s hL hm
  obtain ⟨code, new, hemits, -, -, hsim⟩ := h hL hm
  exact ⟨code, hemits, fun fuel ρ σ ha => (hsim fuel ρ σ ha).imp fun _ _ _ h => ⟨h.1, new, h.2⟩⟩

mutual

/-- What a statement on integers is lowered to runs hand in hand with it, by recursion on the
statement. -/
theorem lowerStmt_preserves (ctx : Context) :
    (s : Surface.Stmt) → ∀ {L : Layout} {scope scope' : Scope} {b b' : Builder},
    integerStmt L.names s → L.Fits b.nextId scope → lowerStmt ctx scope s b = .ok scope' b' →
      Preserves zero L (declared s) (fun fuel ρ => exec zero fuel s ρ) b b' scope'
  | .decl _ kind name (some init), L, scope, scope', b, b', hs, hL, h => by
    unfold integerStmt at hs
    unfold lowerStmt at h
    obtain ⟨l, b1, h1, k1⟩ := bind_ok h
    obtain ⟨v, b2, h2, k2⟩ := bind_ok k1
    cases k2
    simp only [exec]
    exact decl_preserves hL hs h1 h2
  | .assign span op place e, L, scope, scope', b, b', hs, hL, h => by
    obtain ⟨xSpan, x, rfl⟩ : ∃ xSpan x, place = .var xSpan x := by
      cases place with
      | var xSpan x => exact ⟨xSpan, x, rfl⟩
      | _ => simp [integerStmt] at hs
    simp only [integerStmt, Bool.and_eq_true, bne_iff_ne] at hs
    simp only [exec]
    exact (lowerAssign_keeps hs.1.1 hs.1.2 hs.2).preserves hL h
  | .ifElse span c yes none, L, scope, scope', b, b', hs, hL, h => by
    simp only [integerStmt, Bool.and_eq_true] at hs
    have hyes : Keeps zero L scope _ _ (Within L) :=
      Preserves.within fun _ _ _ => lowerStmt_preserves ctx yes hs.2
    have hno : Keeps zero L scope (pure scope) (fun _ ρ => some (ρ, .normal)) (Agrees L) := by
      intro _ _ _ _ h
      cases h
      exact ⟨[], .refl _, .skip⟩
    simp only [exec]
    exact ifElse_preserves hs.1 hyes.inBlock hno hL h
  | .ifElse span c yes (some no), L, scope, scope', b, b', hs, hL, h => by
    simp only [integerStmt, Bool.and_eq_true] at hs
    have hyes : Keeps zero L scope _ _ (Within L) :=
      Preserves.within fun _ _ _ => lowerStmt_preserves ctx yes hs.1.2
    have hno : Keeps zero L scope _ _ (Within L) :=
      Preserves.within fun _ _ _ => lowerStmt_preserves ctx no hs.2
    simp only [exec]
    exact ifElse_preserves hs.1.1 hyes.inBlock hno.inBlock hL h
  | .while_ span c body, L, scope, scope', b, b', hs, hL, h => by
    simp only [integerStmt, Bool.and_eq_true] at hs
    have hbody : Keeps zero L scope _ _ (Within L) :=
      Preserves.within fun _ _ _ => lowerStmt_preserves ctx body hs.2
    simp only [exec]
    exact while_preserves hs.1 hbody.inBlock hL h
  | .forOf span binding iter body, L, scope, scope', b, b', hs, hL, h => by
    unfold integerStmt at hs
    cases hloop : loopOver? iter with
    | none => simp [hloop] at hs
    | some range =>
      cases hx : loopVar? binding with
      | none => simp [hx] at hs
      | some x =>
        simp only [hloop, hx, Bool.and_eq_true] at hs
        have hbody : KeepsBody zero L scope x (fun inner => lowerStmt ctx inner body)
            fun fuel ρ => exec zero fuel body ρ :=
          fun loc => Preserves.within fun _ _ _ => lowerStmt_preserves ctx body hs.2
        simp only [exec, hloop, hx]
        exact forOf_preserves hloop hx hs.1 hbody hL h
  | .break_ span, L, scope, scope', b, b', hs, hL, h => by
    simp only [exec]
    exact loopControl_keeps.preserves hL h
  | .continue_ span, L, scope, scope', b, b', hs, hL, h => by
    simp only [exec]
    exact loopControl_keeps.preserves hL h
  | .block span body, L, scope, scope', b, b', hs, hL, h => by
    unfold integerStmt at hs
    simp only [exec]
    exact (lowerStmts_keeps body hs).inBlock.preserves hL h
  | .expr span e, L, scope, scope', b, b', hs, hL, h => by
    unfold integerStmt at hs
    unfold lowerStmt at h
    obtain ⟨l, b1, h1, k1⟩ := bind_ok h
    cases k1
    simp only [exec]
    obtain ⟨loc, -, -, hleads⟩ := computes_lowerExpr e hs hL h1
    refine .keep hL (hleads.simulates hL (.refl _) fun fuel ρ σ ha ⟨v, hv, _⟩ => ?_)
    have hv : eval zero ρ e = some v := hv
    simp only [hv, Option.map_some, runAll]
    exact .done ⟨trivial, ha⟩
  | .empty span, L, scope, scope', b, b', hs, hL, h => by
    cases h
    exact .keep hL ⟨[], .refl _, .skip⟩
  | .decl _ _ _ none, L, scope, scope', b, b', hs, hL, h => by simp [integerStmt] at hs
  | .function _ _, L, scope, scope', b, b', hs, hL, h => by simp [integerStmt] at hs
  | .return_ _ _, L, scope, scope', b, b', hs, hL, h => by simp [integerStmt] at hs

theorem lowerStmts_keeps {ctx : Context} :
    (ss : List Surface.Stmt) → ∀ {L : Layout} {scope : Scope},
    integerStmts L.names ss →
      Keeps zero L scope (lowerStmts ctx scope ss) (fun fuel ρ => execAll zero fuel ss ρ) (Within L)
  | [], L, scope, hs => by
    intro b b' s hL h
    cases h
    exact ⟨[], .refl _, fun fuel ρ σ ha => .done ⟨trivial, [], ha⟩⟩
  | s :: ss, L, scope, hs => by
    intro b b' scope' hL h
    simp only [integerStmts, Bool.and_eq_true] at hs
    unfold lowerStmts at h
    obtain ⟨scope1, b1, h1, k1⟩ := bind_ok h
    obtain ⟨code, new, hemits, hnames, hfits, hsim⟩ := lowerStmt_preserves ctx s hs.1 hL h1
    have hss : integerStmts (Layout.names (new ++ L)) ss := by
      rw [Layout.names_append, hnames]
      exact hs.2
    obtain ⟨code', hemits', hsim'⟩ := lowerStmts_keeps ss hss hfits k1
    refine ⟨code ++ code', hemits.trans hemits', fun fuel ρ σ ha => ?_⟩
    simp only [runAll_append, execAll]
    refine (hsim fuel ρ σ ha).andThen (fun ρ σ h => ?_) fun _ _ _ _ h => ⟨h.1, new, h.2⟩
    refine (hemits.loops ▸ hsim' fuel ρ σ h.2).imp fun _ _ _ h => ⟨h.1, ?_⟩
    obtain ⟨ext, hext⟩ := h.2
    exact ⟨ext ++ new, by rwa [List.append_assoc]⟩

end

/-! ## 3. The runs of a statement and of what it is lowered to -/

theorem Simulates.of_evaluates (h : Simulates zero L loops r code Q) {fuel : Nat} {ρ' : Env}
    (ha : Agrees L ρ σ) (hr : r fuel ρ = some (ρ', out)) :
    ∃ σ', Executes zero code σ σ' out ∧ Q ρ' σ' := by
  have hrel := h fuel ρ σ ha
  rw [hr] at hrel
  generalize hy : runAll zero fuel code σ = y at hrel
  cases hrel with
  | @some _ q hpq =>
    obtain ⟨σ', out'⟩ := q
    obtain ⟨rfl, -, hq⟩ := hpq
    exact ⟨σ', ⟨fuel, hy⟩, hq⟩

theorem Simulates.of_executes (h : Simulates zero L loops r code Q) {σ' : Store} (ha : Agrees L ρ σ)
    (hexec : Executes zero code σ σ' out) : ∃ fuel ρ', r fuel ρ = some (ρ', out) ∧ Q ρ' σ' := by
  obtain ⟨fuel, hy⟩ := hexec
  have hrel := h fuel ρ σ ha
  rw [hy] at hrel
  generalize hx : r fuel ρ = x at hrel
  cases hrel with
  | @some p _ hpq =>
    obtain ⟨ρ', out'⟩ := p
    obtain ⟨rfl, -, hq⟩ := hpq
    exact ⟨fuel, ρ', hx, hq⟩

/-- The statements that a statement on integers is lowered to are run to an end exactly if the
statement is, and then every variable has its value in the store, those included that the statement
has declared. -/
theorem executes_iff_evaluates (zero : ByZero) (ctx : Context) {L : Layout} {scope scope' : Scope}
    {s : Surface.Stmt} {b b' : Builder} (hs : integerStmt L.names s) (hL : L.Fits b.nextId scope)
    (h : lowerStmt ctx scope s b = .ok scope' b') :
    ∃ code new, b'.block.toList = b.block.toList ++ code ∧ Layout.names new = declared s
      ∧ Layout.Fits (new ++ L) b'.nextId scope'
      ∧ ∀ ρ σ, Agrees L ρ σ →
        ((∃ σ' out, Executes zero code σ σ' out) ↔ ∃ ρ' out, Evaluates zero s ρ ρ' out)
          ∧ ∀ σ' ρ' out out', Executes zero code σ σ' out → Evaluates zero s ρ ρ' out' →
            out = out' ∧ Agrees (new ++ L) ρ' σ' := by
  obtain ⟨code, new, hemits, hnames, hfits, hsim⟩ := lowerStmt_preserves ctx s hs hL h
  refine ⟨code, new, hemits.block, hnames, hfits, fun ρ σ ha => ⟨⟨?_, ?_⟩, ?_⟩⟩
  · rintro ⟨σ', out, hexec⟩
    obtain ⟨fuel, ρ', hr, -⟩ := hsim.of_executes ha hexec
    exact ⟨ρ', out, fuel, hr⟩
  · rintro ⟨ρ', out, fuel, hr⟩
    obtain ⟨σ', hexec, -⟩ := hsim.of_evaluates ha hr
    exact ⟨σ', out, hexec⟩
  · rintro σ' ρ' out out' hexec ⟨fuel, hr⟩
    obtain ⟨σ₁, hexec₁, hagrees⟩ := hsim.of_evaluates ha hr
    obtain ⟨rfl, rfl⟩ := hexec.unique hexec₁
    exact ⟨rfl, hagrees⟩

/-- Counts steps until a number is one, and then mixes the count up in two more loops. -/
def stepsSource : String :=
  "(n: i32) => \x7b let steps = 0; "
    ++ "while (n > 1) \x7b steps += 1; if (n % 2 == 0) \x7b n = n >> 1; continue \x7d n *= 3; n += 1; \x7d "
    ++ "for (const i of range(n, steps)) \x7b if (i == 9) \x7b break \x7d steps ^= i & 1 ? i : ~i; \x7d "
    ++ "for (const k of static(range(2))) \x7b const n = k - 5; steps = steps - n * k; \x7d n = -steps \x7d"

def stepsScope : Scope where
  table := [("n", .place (.local 0 .i32 [] .i32))]

def stepsContext : Context := { settings := {}, origin := .kernel, inline := inliner {} {} 0 }

theorem stepsScope_fits : Layout.Fits [("n", .slot 0)] 1 stepsScope where
  found x l h := by
    rw [List.lookup_cons] at h
    cases hx : x == "n" with
    | true =>
      rw [hx] at h
      cases h
      rw [eq_of_beq hx]
      rfl
    | false =>
      rw [hx] at h
      cases h
  below p hp := by
    rw [List.mem_singleton.1 hp]
    exact Nat.one_pos
  distinct := by decide

def stepsRun : Bool :=
  match Routine.parse kernelFile stepsSource with
  | .ok r =>
    match lowerStmt stepsContext stepsScope (.block r.span r.body) { nextId := 1 } with
    | .ok _ _ =>
      integerStmt ["n"] (.block r.span r.body)
        && exec (fun _ x => x) 20 (.block r.span r.body) [("n", 7)] = some ([("n", -28)], .normal)
    | .error _ _ => false
  | .error _ => false

theorem executes_steps :
    ∃ r scope' b', Routine.parse kernelFile stepsSource = .ok r
      ∧ lowerStmt stepsContext stepsScope (.block r.span r.body) { nextId := 1 } = .ok scope' b'
      ∧ ∃ σ', Executes (fun _ x => x) b'.block.toList ⟨fun _ => none,
        fun i => if i = 0 then some 7 else none⟩ σ' .normal
        ∧ σ'.slots 0 = some (-28) := by
  have hrun : stepsRun = true := by decide +kernel
  unfold stepsRun at hrun
  split at hrun
  · rename_i r hr
    split at hrun
    · rename_i scope' b' hb
      rw [Bool.and_eq_true, decide_eq_true_eq] at hrun
      obtain ⟨code, new, hblock, hnames, -, hsim⟩ :=
        executes_iff_evaluates (fun _ x => x) stepsContext (L := [("n", .slot 0)]) hrun.1 stepsScope_fits hb
      obtain rfl : new = [] := List.map_eq_nil_iff.1 hnames
      obtain ⟨hiff, hagrees⟩ :=
        hsim [("n", 7)] ⟨fun _ => none, fun i => if i = 0 then some 7 else none⟩ (.cons ⟨rfl, rfl⟩ .nil)
      have hevaluates : Evaluates (fun _ x => x) (.block r.span r.body) [("n", 7)] [("n", -28)] .normal := ⟨20, hrun.2⟩
      obtain ⟨σ', out, hexec⟩ := hiff.2 ⟨_, _, hevaluates⟩
      obtain ⟨rfl, hstore⟩ := hagrees _ _ _ _ hexec hevaluates
      have hcode : b'.block.toList = code := by simpa using hblock
      cases hstore with
      | cons hn _ => exact ⟨r, scope', b', hr, hb, σ', hcode ▸ hexec, hn.2⟩
    · cases hrun
  · cases hrun

end ArrayKernel.Meaning
