import ArrayKernel.Proofs.Meaning.Expression

/-!
# Statements keep their meaning

`Simulates` says that a statement and what it is lowered to run hand in hand: with any fuel both end
or neither does, in the same way, and the variables agree with the store afterwards.
-/

namespace ArrayKernel.Meaning

open IR Lowering Surface Option

variable {zero : ByZero} {b b' b1 b2 : Builder} {kind : AtomicKind} {c o : Operand}
  {r1 r2 : Nat → Env → Result Env} {id : StmtId} {fuel : Nat} {ρ : Env} {σ : Store} {op : AssignOp}
  {hint x : String} {l : Lowered} {span : Span} {p : Place}

/-! ## 1. Runs that go hand in hand -/

def Allowed (loops : List LoopKind) : Outcome → Prop
  | .normal => True
  | .broke => loops.head? = some .serial
  | .continued => loops.head? = some .serial ∨ loops.head? = some .parallel

/-- The variables of a layout, and perhaps some that were declared after them. -/
def Within (L : Layout) : Assertion := fun ρ σ => ∃ ext, Agrees (ext ++ L) ρ σ

/-- The run of a part of the program and that of the statements that it is lowered to. -/
def Simulates (zero : ByZero) (L : Layout) (loops : List LoopKind) (r : Nat → Env → Result Env)
    (code : List IR.Stmt) (Q : Assertion) : Prop :=
  ∀ fuel ρ σ, Agrees L ρ σ →
    Related (fun out ρ σ => Allowed loops out ∧ Q ρ σ) (r fuel ρ) (runAll zero fuel code σ)

/-- Lowering emits statements that run hand in hand with a part of the program. -/
def Keeps {α : Type} (zero : ByZero) (L : Layout) (scope : Scope) (m : Lower α)
    (r : Nat → Env → Result Env) (Q : Assertion) : Prop :=
  ∀ ⦃b b' : Builder⦄ ⦃a : α⦄, L.Fits b.nextId scope → m b = .ok a b' →
    ∃ code, Emits b b' code ∧ Simulates zero L b.loops r code Q

def inBlock (r : Nat → Env → Result Env) : Nat → Env → Result Env :=
  fun fuel ρ => leave ρ (r fuel ρ)

variable {L : Layout} {scope : Scope} {loops : List LoopKind} {r : Nat → Env → Result Env}
  {code : List IR.Stmt} {α : Type} {m : Lower α} {Q : Assertion} {a : α}

theorem leave_related {before : Env} {x : Result Env} {y : Result Store}
    (hlen : before.length = L.length)
    (h : Related (fun out ρ σ => Allowed loops out ∧ Within L ρ σ) x y) :
    Related (fun out ρ σ => Allowed loops out ∧ Agrees L ρ σ) (leave before x) y := by
  cases h with
  | none => exact .none
  | some hpq =>
    obtain ⟨hout, hallowed, ext, hext⟩ := hpq
    exact .some ⟨hout, hallowed, hext.drop hlen⟩

theorem Keeps.inBlock (h : Keeps zero L scope m r (Within L)) :
    Keeps zero L scope m (inBlock r) (Agrees L) := by
  intro b b' a hL hm
  obtain ⟨code, he, hsim⟩ := h hL hm
  exact ⟨code, he, fun fuel ρ σ ha => leave_related ha.length_eq.symm (hsim fuel ρ σ ha)⟩

theorem Leads.simulates {P : Assertion} (h : Leads zero (Agrees L) b b1 P)
    (hL : L.Fits b.nextId scope) (he : Emits b1 b2 code) (hsim : ∀ fuel ρ σ, Agrees L ρ σ → P ρ σ →
      Related (fun out ρ σ => Allowed loops out ∧ Q ρ σ) (r fuel ρ) (runAll zero fuel code σ)) :
    ∃ code', Emits b b2 code' ∧ Simulates zero L loops r code' Q := by
  obtain ⟨code1, he1, hc⟩ := h
  refine ⟨code1 ++ code, he1.trans he, fun fuel ρ σ ha => ?_⟩
  obtain ⟨σ1, h1, hs, hp⟩ := hc fuel ρ σ ha
  rw [runAll_append_of_normal h1]
  exact hsim fuel ρ σ1 (ha.same hL.below hs) hp

theorem Keeps.capture (h : Keeps zero L scope m r Q) (hL : L.Fits b.nextId scope)
    (hm : capture m b = .ok (code, a) b') : Emits b b' [] ∧ Simulates zero L b.loops r code Q := by
  obtain ⟨b1, h1, rfl, rfl⟩ := captureInto_ok hm
  obtain ⟨code', he, hsim⟩ := h (b := { b with block := #[] }) hL h1
  have hcode : b1.block.toList = code' := by simpa using he.block
  exact ⟨⟨by simp, he.nextId, he.loops⟩, hcode ▸ hsim⟩

theorem Keeps.inLoop {kind : LoopKind} (h : Keeps zero L scope m r Q)
    (hL : L.Fits b.nextId scope) (hm : inLoop kind m b = .ok a b') :
    ∃ code, Emits b b' code ∧ Simulates zero L (kind :: b.loops) r code Q := by
  obtain ⟨b1, h1, rfl⟩ := inLoop_ok hm
  obtain ⟨code, he, hsim⟩ := h (b := { b with loops := kind :: b.loops }) hL h1
  refine ⟨code, ⟨he.block, he.nextId, ?_⟩, hsim⟩
  show b1.loops.drop 1 = b.loops
  rw [he.loops]
  rfl

theorem Keeps.captureInLoop {kind : LoopKind} (h : Keeps zero L scope m r Q)
    (hL : L.Fits b.nextId scope)
    (hm : Lowering.capture (Lowering.inLoop kind m) b = .ok (code, a) b') :
    Emits b b' [] ∧ Simulates zero L (kind :: b.loops) r code Q := by
  obtain ⟨b1, h1, rfl, rfl⟩ := captureInto_ok hm
  obtain ⟨code', he, hsim⟩ := h.inLoop (b := { b with block := #[] }) hL h1
  have hcode : b1.block.toList = code' := by simpa using he.block
  exact ⟨⟨by simp, he.nextId, he.loops⟩, hcode ▸ hsim⟩

/-! ## 2. Branches and conditional loops -/

variable {ctx : Context} {e : Expr}

theorem lowerCondition_leads (zero : ByZero) (he : integerExpr L.names e)
    (hL : L.Fits b.nextId scope) (h : lowerCondition ctx scope e b = .ok c b') :
    IsOperand b'.nextId c ∧ Leads zero (Agrees L) b b' (Holds (fun ρ => eval zero ρ e) fun σ => σ.value c) := by
  obtain ⟨l, b1, h1, k1⟩ := bind_ok h
  obtain ⟨x, b2, h2, k2⟩ := bind_ok k1
  obtain ⟨o, rfl, ho, hleads⟩ := (computes_lowerExpr e he).rvalue hL h1 h2
  cases k2
  exact ⟨ho, hleads⟩

theorem ifElse_related {yes no : List IR.Stmt}
    (hyes : Simulates zero L loops r1 yes Q) (hno : Simulates zero L loops r2 no Q)
    (ha : Agrees L ρ σ) (hc : Holds (fun ρ => eval zero ρ e) (fun σ => σ.value c) ρ σ) :
    Related (fun out ρ σ => Allowed loops out ∧ Q ρ σ)
      ((eval zero ρ e).bind fun v => if v ≠ 0 then r1 fuel ρ else r2 fuel ρ)
      (runAll zero fuel [.ifElse id c yes no] σ) := by
  obtain ⟨v, he, hv⟩ := hc
  rw [runAll_singleton]
  simp only [run, he, hv]
  by_cases hv0 : v = 0
  · simpa [hv0] using hno fuel ρ σ ha
  · simpa [hv0] using hyes fuel ρ σ ha

theorem chosen_related {r3 : Nat → Env → Result Env} {v : Int32}
    (hsim : Simulates zero L loops r3 code Q)
    (hr : ∀ fuel ρ, (if v ≠ 0 then r1 fuel ρ else r2 fuel ρ) = r3 fuel ρ) (ha : Agrees L ρ σ)
    (hc : Holds (fun ρ => eval zero ρ e) (fun σ => σ.value (.const (.i32 v))) ρ σ) :
    Related (fun out ρ σ => Allowed loops out ∧ Q ρ σ)
      ((eval zero ρ e).bind fun v => if v ≠ 0 then r1 fuel ρ else r2 fuel ρ) (runAll zero fuel code σ) := by
  obtain ⟨w, he, hw⟩ := hc
  cases hw
  simp only [he, bind_some, hr]
  exact hsim fuel ρ σ ha

theorem Simulates.skip : Simulates zero L loops (fun _ ρ => some (ρ, .normal)) [] (Agrees L) :=
  fun _ _ _ ha => .done ⟨trivial, ha⟩

theorem whileLoop_of_false {S : Type} {test : S → Option (S × Bool)} {body : S → Result S}
    {s s1 : S} (h : test s = some (s1, false)) (fuel : Nat) :
    whileLoop test body fuel s = some s1 := by
  cases fuel <;> simp [whileLoop, h]

theorem while_related {condBody stmts : List IR.Stmt} {n : StmtId} {kinds : List LoopKind}
    (hL : L.Fits n scope)
    (hcond : Carries zero n (Agrees L) condBody (Holds (fun ρ => eval zero ρ e) fun σ => σ.value c))
    (hbody : Simulates zero L kinds r stmts (Agrees L)) (fuel : Nat) (ha : Agrees L ρ σ) :
    Related (fun out ρ σ => Allowed loops out ∧ Agrees L ρ σ)
      (ended (whileLoop (fun ρ => (eval zero ρ e).map fun v => (ρ, decide (v ≠ 0))) (r fuel) fuel ρ))
      (runAll zero fuel [.while_ id condBody c stmts] σ) := by
  rw [runAll_singleton, run]
  refine .ended (whileLoop_related (fun ρ σ ha => ?_) (fun ρ σ ha => ?_) ha) fun _ _ h => ⟨trivial, h⟩
  · obtain ⟨σ1, h1, hs, v, he, hv⟩ := hcond fuel ρ σ ha
    simp only [he, h1, hv, bind_some]
    exact .some ⟨rfl, ha.same hL.below hs⟩
  · exact (hbody fuel ρ σ ha).imp fun _ _ _ h => h.2

/-! ## 3. Assignments -/

theorem localStore_simulates {i : StmtId} (hL : L.Fits b.nextId scope)
    (hx : L.lookup x = some (.slot id))
    (h : Leads zero (Agrees L) b b1 (Holds (fun ρ => assigned zero op ρ x e) fun σ => σ.value o))
    (hemit : emit (.localStore id [] o) b1 = .ok i b2) :
    ∃ code, Emits b b2 code ∧ Simulates zero L loops
      (fun _ ρ => (assigned zero op ρ x e).map fun v => (assign x v ρ, .normal)) code (Agrees L) := by
  refine h.simulates hL (Emits.emit hemit).2 fun fuel ρ σ ha ⟨v, hv, ho⟩ => ?_
  rw [runAll_singleton, run]
  simp only [hv, step, ho]
  exact .done ⟨trivial, ha.assign hx hL.distinct v⟩

theorem atomic_simulates {bin : BinOp} {o' : Operand} (hL : L.Fits b.nextId scope)
    (hx : L.lookup x = some (.slot id)) (hbin : op.binary? = some bin)
    (hkind : atomicOf? op = some kind)
    (h : Leads zero (Agrees L) b b1 (Holds (fun ρ => eval zero ρ e) fun σ => σ.value o))
    (hemit : emitValue (.atomic (.local id []) kind o .i32) b1 = .ok o' b2) :
    ∃ code, Emits b b2 code ∧ Simulates zero L loops
      (fun _ ρ => (assigned zero op ρ x e).map fun v => (assign x v ρ, .normal)) code (Agrees L) := by
  obtain ⟨i, b3, h3, hr⟩ := bind_ok hemit
  cases hr
  have hnext : b.nextId ≤ b1.nextId := h.nextId
  refine h.simulates hL (Emits.emit h3).2 fun fuel ρ σ ha ⟨v, hv, ho⟩ => ?_
  obtain ⟨old, hold, hslot⟩ : ∃ old, ρ.lookup x = some old ∧ σ.slots id = some old := ha.lookup hx
  have hupdate : binary zero bin old v = some (update kind old v) := by
    cases op <;> cases hbin <;> cases hkind <;> rfl
  rw [runAll_singleton, run]
  simp only [assigned, hold, hv, hbin, hupdate, step, hslot, ho, bind_some]
  exact .done ⟨trivial, (ha.assign hx hL.distinct _).same hL.below (.setValue _ hnext old)⟩

theorem store_ok {u : Unit} (h : store (.local id .i32 [] .i32) l span b = .ok u b') :
    ∃ o ty b1 o' b2 i, rvalue l span b = .ok (o, ty) b1 ∧ coerce o ty .i32 span b1 = .ok o' b2 ∧
      emit (.localStore id [] o') b2 = .ok i b' := by
  have h' : (rvalue l span >>= fun x => coerce x.1 x.2 .i32 span >>= fun o =>
      discard (emit (.localStore id [] o))) b = .ok u b' := h
  obtain ⟨⟨o, ty⟩, b1, h1, k1⟩ := bind_ok h'
  obtain ⟨o', b2, h2, k2⟩ := bind_ok k1
  obtain ⟨i, h3⟩ := discard_ok k2
  exact ⟨o, ty, b1, o', b2, i, h1, h2, h3⟩

theorem atomic_ok {x : TypedOperand}
    (h : atomic (.local id .i32 [] .i32) kind l span b = .ok x b') :
    ∃ o ty b1 o' b2 w, rvalue l span b = .ok (o, ty) b1 ∧ coerce o ty .i32 span b1 = .ok o' b2 ∧
      emitValue (.atomic (.local id []) kind o' .i32) b2 = .ok w b' := by
  have h' : (rvalue l span >>= fun x => coerce x.1 x.2 .i32 span >>= fun o =>
      emitValue (.atomic (.local id []) kind o .i32) >>= fun w => pure (w, .i32)) b = .ok x b' := h
  obtain ⟨⟨o, ty⟩, b1, h1, k1⟩ := bind_ok h'
  obtain ⟨o', b2, h2, k2⟩ := bind_ok k1
  obtain ⟨w, b3, h3, k3⟩ := bind_ok k2
  cases k3
  exact ⟨o, ty, b1, o', b2, w, h1, h2, h3⟩

theorem lowerExpr_var_place (hL : L.Fits b.nextId scope)
    (hx : L.names.contains x) (h : lowerExpr ctx scope (.var span x) b = .ok (.place p) b') :
    ∃ id, L.lookup x = some (.slot id) ∧ p = .local id .i32 [] .i32 ∧ b' = b := by
  obtain ⟨loc, hloc⟩ := Layout.exists_lookup hx
  unfold lowerExpr at h
  rw [hL.found x loc hloc] at h
  cases loc with
  | const v | temp id => cases h
  | slot id =>
    cases h
    exact ⟨id, hloc, rfl, rfl⟩

theorem lowerAssign_keeps {xSpan : Span} (hop : op ≠ .div) (hx : L.names.contains x)
    (he : integerExpr L.names e) :
    Keeps zero L scope (lowerAssign ctx scope op (.var xSpan x) e span)
      (fun _ ρ => (assigned zero op ρ x e).map fun v => (assign x v ρ, .normal)) (Agrees L) := by
  intro b b' u hL h
  obtain ⟨l, b1, h1, k1⟩ := bind_ok h
  cases l with
  | place p =>
    obtain ⟨id, hid, rfl, rfl⟩ := lowerExpr_var_place hL hx h1
    obtain ⟨rhs, b2, h2, k2⟩ := bind_ok k1
    have hrhs : Computes zero L scope (lowerExpr ctx scope e) fun ρ => eval zero ρ e := computes_lowerExpr e he
    have hatomic : ∀ {bin kind}, op.binary? = some bin → atomicOf? op = some kind →
        discard (atomic (.local id .i32 [] .i32) kind rhs span) b2 = .ok u b' →
        ∃ code, Emits b1 b' code ∧ Simulates zero L b1.loops
          (fun _ ρ => (assigned zero op ρ x e).map fun v => (assign x v ρ, .normal)) code (Agrees L) := by
      intro bin kind hbin hkind hd
      obtain ⟨_, ha⟩ := discard_ok hd
      obtain ⟨o, ty, b3, o', b4, w, h3, h4, h5⟩ := atomic_ok ha
      obtain ⟨o1, ho, -, hleads⟩ := hrhs.rvalue hL h2 h3
      cases ho
      cases h4
      exact atomic_simulates hL hid hbin hkind hleads h5
    cases op with
    | assign =>
      obtain ⟨o, ty, b3, o', b4, i, h3, h4, h5⟩ := store_ok k2
      obtain ⟨o1, ho, -, hleads⟩ := hrhs.rvalue hL h2 h3
      cases ho
      cases h4
      refine localStore_simulates hL hid ((hleads.keep hL.stable).imp (fun _ _ hp => hp) ?_) h5
      rintro ρ σ ⟨⟨v, hv, ho⟩, ha⟩
      obtain ⟨old, hold, -⟩ := ha.lookup hid
      exact ⟨v, by simp only [assigned, hold, hv, bind_some, AssignOp.binary?], ho⟩
    | add | sub | bitAnd | bitOr | bitXor => exact hatomic rfl rfl k2
    | div => contradiction
    | mul =>
      obtain ⟨loc, hloc, hbelow, hvalue⟩ := hrhs hL h2
      have hslot : (Loc.slot id).Below b2.nextId := (hL.below _ (Layout.mem_of_lookup hid)).mono hvalue.nextId
      obtain ⟨_, b3, h3, k3⟩ := bind_ok k2
      obtain ⟨current, rfl, hcurrent, hload⟩ := rvalue_leads (.place id) hslot h3
      have hload := hload fun ρ => ρ.lookup x
      obtain ⟨_, b4, h4, k4⟩ := bind_ok k3
      obtain ⟨o, rfl, ho, hread⟩ := rvalue_leads hloc (hbelow.mono hload.nextId) h4
      have hread := hread fun ρ => eval zero ρ e
      obtain ⟨_, b5, h5, k5⟩ := bind_ok k4
      obtain ⟨product, rfl, -, hproduct⟩ := binary_leads (by decide) (by decide) (hcurrent.mono hread.nextId) ho h5
      obtain ⟨_, _, _, _, _, i, h6, h7, h8⟩ := store_ok k5
      cases h6
      cases h7
      -- the value of the right side stays at hand while the old value is loaded, and the other way
      -- round
      have hold : Leads zero (Agrees L) b1 b3 _ :=
        (hvalue.keep hL.stable).trans ((hload.frame (.stable_loc hbelow)).imp
          (fun ρ σ hp => ⟨hp.2.lookup hid, hp.1⟩) fun _ _ hq => hq)
      have hboth : Leads zero (Agrees L) b1 b4 _ :=
        hold.trans ((hread.frame (.stable hcurrent)).imp (fun ρ σ hp => ⟨hp.2, hp.1⟩) fun _ _ hq => hq)
      exact localStore_simulates hL hid (hboth.trans (hproduct _ _)) h8
  | value o ty | static v | record es | void => cases k1

/-! ## 4. Declarations and jumps -/

/-- Lowering has emitted statements that run hand in hand with a statement, and has put the
variables that it declares on top of the layout. -/
def Preserves (zero : ByZero) (L : Layout) (declared : List String) (r : Nat → Env → Result Env)
    (b b' : Builder) (scope' : Scope) : Prop :=
  ∃ code new, Emits b b' code ∧ Layout.names new = declared ∧
    Layout.Fits (new ++ L) b'.nextId scope' ∧ Simulates zero L b.loops r code (Agrees (new ++ L))

theorem Preserves.keep (hL : L.Fits b.nextId scope)
    (h : ∃ code, Emits b b' code ∧ Simulates zero L b.loops r code (Agrees L)) :
    Preserves zero L [] r b b' scope := by
  obtain ⟨code, he, hsim⟩ := h
  exact ⟨code, [], he, rfl, hL.mono he.nextId, hsim⟩

theorem allocSlot_ok (h : allocSlot l hint span b = .ok p b') :
    ∃ o ty b1 b2 slot i, rvalue l span b = .ok (o, ty) b1 ∧ emit (.alloca ty (hintOf hint)) b1
      = .ok slot b2 ∧ emit (.localStore slot [] o) b2 = .ok i b' ∧ p = .local slot ty [] ty := by
  obtain ⟨⟨o, ty⟩, b1, h1, k1⟩ := bind_ok h
  obtain ⟨slot, b2, h2, k2⟩ := bind_ok k1
  obtain ⟨i, b3, h3, k3⟩ := bind_ok k2
  cases k3
  exact ⟨o, ty, b1, b2, slot, i, h1, h2, h3, rfl⟩

theorem allocSlot_preserves {loc : Loc} (hL : L.Fits b.nextId scope) (hl : IsInt l loc)
    (hloc : loc.Below b1.nextId)
    (hleads : Leads zero (Agrees L) b b1 (Holds (fun ρ => eval zero ρ e) fun σ => loc.read σ))
    (h : allocSlot l hint span b1 = .ok p b') :
    Preserves zero L [x] (fun _ ρ => (eval zero ρ e).map fun v => ((x, v) :: ρ, .normal)) b b'
      (scope.insert x (.place p)) := by
  obtain ⟨o, ty, b2, b3, slot, i, h2, h3, h4, rfl⟩ := allocSlot_ok h
  obtain ⟨o', ho', -, hread⟩ := rvalue_leads hl hloc h2
  cases ho'
  obtain ⟨rfl, he3⟩ := Emits.emit h3
  obtain ⟨-, he4⟩ := Emits.emit h4
  have hvalue := hleads.trans (hread _)
  have hlt : b2.nextId < b'.nextId := by
    obtain ⟨-, rfl⟩ := emit_ok h3
    exact he4.nextId
  have hrun : ∃ code, Emits b b' code ∧ Simulates zero L b.loops
      (fun _ ρ => (eval zero ρ e).map fun v => ((x, v) :: ρ, .normal)) code (Agrees ((x, .slot b2.nextId) :: L)) := by
    refine hvalue.simulates hL (he3.trans he4) fun fuel ρ σ ha ⟨v, hv, ho⟩ => ?_
    have hs : Same b.nextId σ ((σ.setSlot b2.nextId 0).setSlot b2.nextId v) :=
      (Same.setSlot σ hvalue.nextId 0).trans (.setSlot _ hvalue.nextId v) (Nat.le_refl _)
    simp only [hv, List.cons_append, List.nil_append, runAll, run, step, andThen_some, Store.value_setSlot, ho]
    exact .done ⟨trivial, .cons ⟨rfl, by simp [Loc.read]⟩ (ha.same hL.below hs)⟩
  obtain ⟨code, he, hsim⟩ := hrun
  exact ⟨code, [(x, .slot b2.nextId)], he, rfl, hL.pushSlot hvalue.nextId hlt, hsim⟩

theorem decl_preserves {kind : DeclKind} {x : String} {span : Span} {l : Lowered} {v : Value}
    {b b1 b' : Builder} (hL : L.Fits b.nextId scope) (he : integerExpr L.names e)
    (h : lowerExpr ctx scope e b = .ok l b1) (hv : bindDecl kind x span l b1 = .ok v b') :
    Preserves zero L [x] (fun _ ρ => (eval zero ρ e).map fun v => ((x, v) :: ρ, .normal)) b b' (scope.insert x v) := by
  obtain ⟨loc, hl, hloc, hleads⟩ := computes_lowerExpr e he hL h
  -- unless it stays a constant, the value goes into a slot
  have hslot : ∀ {l' : Lowered}, IsInt l' loc → (allocSlot l' x span >>= fun p => pure (.place p)) b1 = .ok v b' →
      Preserves zero L [x] (fun _ ρ => (eval zero ρ e).map fun v => ((x, v) :: ρ, .normal)) b b'
        (scope.insert x v) := by
    intro l' hl' hm
    obtain ⟨p, b2, h2, hr⟩ := bind_ok hm
    cases hr
    exact allocSlot_preserves hL hl' hloc hleads h2
  cases hl with
  | folded c => exact hslot (.folded c) hv
  | value id => exact hslot (.value id) hv
  | place id => exact hslot (.place id) hv
  | static c =>
    by_cases hkind : kind = .const
    · subst hkind
      cases hv
      have hrun : ∃ code, Emits b b1 code ∧ Simulates zero L b.loops
          (fun _ ρ => (eval zero ρ e).map fun v => ((x, v) :: ρ, .normal)) code (Agrees ((x, .const c) :: L)) := by
        refine hleads.simulates hL (.refl b1) fun fuel ρ σ ha hw => ?_
        obtain ⟨w, hw, hc⟩ := hw
        simp only [hw]
        exact .done ⟨trivial, .cons ⟨rfl, hc⟩ ha⟩
      obtain ⟨code, hemits, hsim⟩ := hrun
      have hnone : ∀ id, (Loc.const c).slot? = some id → id ∉ L.slots := by
        intro id h
        cases h
      exact ⟨code, [(x, .const c)], hemits, rfl, (hL.mono hemits.nextId).push x trivial hnone, hsim⟩
    · have hv' : (allocSlot (.static (.number (.i32 c))) x span >>= fun p => pure (.place p)) b1 = .ok v b' := by
        have hcopied : ¬ (isShared (.number (.i32 c)) || decide (kind = .const)) = true := by
          simpa [isShared] using hkind
        rwa [bindDecl, if_neg hcopied] at hv
      exact hslot (.static c) hv'

theorem loopControl_keeps {c : LoopControl} :
    Keeps zero L scope (loopControl c span) (fun _ ρ => some (ρ, outcomeOf c)) (Agrees L) := by
  intro b b' u hL h
  have hjump : discard (emit (.loopControl c)) b = .ok u b' → Allowed b.loops (outcomeOf c) →
      ∃ code, Emits b b' code ∧ Simulates zero L b.loops (fun _ ρ => some (ρ, outcomeOf c)) code (Agrees L) := by
    intro hd hallowed
    obtain ⟨i, hi⟩ := discard_ok hd
    refine ⟨_, (Emits.emit hi).2, fun fuel ρ σ ha => ?_⟩
    rw [runAll_singleton, run]
    exact .done ⟨hallowed, ha⟩
  obtain ⟨_, _, hget, k⟩ := bind_ok h
  cases hget
  cases hloop : b.loops.head? with
  | none =>
    rw [hloop] at k
    cases c <;> cases k
  | some kind =>
    rw [hloop] at k
    cases kind with
    | serial => exact hjump k (by cases c <;> simp [Allowed, outcomeOf, hloop])
    | parallel =>
      cases c with
      | break_ => cases k
      | continue_ => exact hjump k (.inr hloop)
    | static | function => cases c <;> cases k

end ArrayKernel.Meaning
