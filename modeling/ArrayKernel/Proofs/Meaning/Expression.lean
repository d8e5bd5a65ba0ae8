import ArrayKernel.Proofs.Meaning.Layout

/-!
# Expressions keep their meaning

`Leads P b b' Q` says that the statements emitted between two states lead from `P` to `Q` and change
nothing under the ids that were taken before.
-/

namespace ArrayKernel.Meaning

open IR Lowering Surface Option

variable {zero : ByZero} {o o₁ o₂ : Operand} {i id m n : StmtId} {u : Unit} {f : Env → Option Int32}
  {b b' : Builder} {l : Lowered} {loc : Loc} {span : Span} {x : TypedOperand} {code : List IR.Stmt}
  {P : Assertion}

/-! ## 1. Emitted statements -/

structure Emits (b b' : Builder) (code : List IR.Stmt) : Prop where
  block : b'.block.toList = b.block.toList ++ code
  nextId : b.nextId ≤ b'.nextId
  loops : b'.loops = b.loops

namespace Emits

variable {b b1 b2 : Builder} {code code' : List IR.Stmt}

theorem refl (b : Builder) : Emits b b [] := ⟨by simp, Nat.le_refl _, rfl⟩

theorem trans (h : Emits b b1 code) (h' : Emits b1 b2 code') : Emits b b2 (code ++ code') :=
  ⟨by rw [h'.block, h.block, List.append_assoc], Nat.le_trans h.nextId h'.nextId, h'.loops.trans h.loops⟩

theorem emit {o : Op} (h : emit o b = .ok i b1) : i = b.nextId ∧ Emits b b1 [.op b.nextId o] := by
  obtain ⟨rfl, rfl⟩ := emit_ok h
  exact ⟨rfl, by simp, Nat.le_succ _, rfl⟩

theorem push {s : IR.Stmt} (hi : freshId b = .ok i b1) (h : push s b1 = .ok u b2) :
    Emits b b2 [s] := by
  obtain ⟨rfl, rfl⟩ := freshId_ok hi
  obtain rfl := push_ok h
  exact ⟨by simp, Nat.le_succ _, rfl⟩

end Emits

abbrev Assertion := Env → Store → Prop

/-- The property does not depend on what stands under the ids from a bound on. -/
def Stable (n : StmtId) (P : Assertion) : Prop := ∀ ρ σ σ', Same n σ σ' → P ρ σ → P ρ σ'

theorem Stable.and {Q : Assertion} (h : Stable n P) (h' : Stable n Q) :
    Stable n fun ρ σ => P ρ σ ∧ Q ρ σ :=
  fun ρ σ σ' hs hpq => ⟨h ρ σ σ' hs hpq.1, h' ρ σ σ' hs hpq.2⟩

theorem Layout.Fits.stable {L : Layout} {scope : Scope} (h : L.Fits n scope) :
    Stable n (Agrees L) :=
  fun _ _ _ hs ha => ha.same h.below hs

/-- The statements run from `P` to `Q` and change nothing below a bound. -/
def Carries (zero : ByZero) (n : StmtId) (P : Assertion) (code : List IR.Stmt) (Q : Assertion) :
    Prop :=
  ∀ fuel ρ σ, P ρ σ → ∃ σ', runAll zero fuel code σ = some (σ', .normal) ∧ Same n σ σ' ∧ Q ρ σ'

namespace Carries

variable {n m : StmtId} {P Q R F : Assertion} {code code' : List IR.Stmt}

theorem nil (h : ∀ ρ σ, P ρ σ → Q ρ σ) : Carries zero n P [] Q :=
  fun _ ρ σ hp => ⟨σ, rfl, .refl _ _, h ρ σ hp⟩

theorem append (h : Carries zero n P code Q) (h' : Carries zero m Q code' R) (hn : n ≤ m) :
    Carries zero n P (code ++ code') R := by
  intro fuel ρ σ hp
  obtain ⟨σ1, h1, hs1, hq⟩ := h fuel ρ σ hp
  obtain ⟨σ2, h2, hs2, hr⟩ := h' fuel ρ σ1 hq
  exact ⟨σ2, by rw [runAll_append_of_normal h1, h2], hs1.trans hs2 hn, hr⟩

theorem frame (h : Carries zero n P code Q) (hF : Stable n F) :
    Carries zero n (fun ρ σ => P ρ σ ∧ F ρ σ) code (fun ρ σ => Q ρ σ ∧ F ρ σ) := by
  intro fuel ρ σ ⟨hp, hf⟩
  obtain ⟨σ', h1, hs, hq⟩ := h fuel ρ σ hp
  exact ⟨σ', h1, hs, hq, hF ρ σ σ' hs hf⟩

theorem imp {P' Q' : Assertion} (h : Carries zero n P code Q) (hP : ∀ ρ σ, P' ρ σ → P ρ σ)
    (hQ : ∀ ρ σ, Q ρ σ → Q' ρ σ) : Carries zero n P' code Q' := by
  intro fuel ρ σ hp
  obtain ⟨σ', h1, hs, hq⟩ := h fuel ρ σ (hP ρ σ hp)
  exact ⟨σ', h1, hs, hQ ρ σ' hq⟩

theorem mono (h : Carries zero m P code Q) (hn : n ≤ m) : Carries zero n P code Q := by
  intro fuel ρ σ hp
  obtain ⟨σ', h1, hs, hq⟩ := h fuel ρ σ hp
  exact ⟨σ', h1, hs.mono hn, hq⟩

theorem op {o : Op}
    (h : ∀ ρ σ, P ρ σ → ∃ σ', step zero id o σ = some (σ', .normal) ∧ Same n σ σ' ∧ Q ρ σ') :
    Carries zero n P [.op id o] Q := by
  intro fuel ρ σ hp
  obtain ⟨σ', h1, hs, hq⟩ := h ρ σ hp
  exact ⟨σ', by rw [runAll_singleton, run, h1], hs, hq⟩

end Carries

def Leads (zero : ByZero) (P : Assertion) (b b' : Builder) (Q : Assertion) : Prop :=
  ∃ code, Emits b b' code ∧ Carries zero b.nextId P code Q

namespace Leads

variable {b b1 b2 : Builder} {P Q R F : Assertion}

theorem refl (h : ∀ ρ σ, P ρ σ → Q ρ σ) : Leads zero P b b Q := ⟨[], .refl b, .nil h⟩

theorem trans (h : Leads zero P b b1 Q) (h' : Leads zero Q b1 b2 R) : Leads zero P b b2 R := by
  obtain ⟨code, he, hc⟩ := h
  obtain ⟨code', he', hc'⟩ := h'
  exact ⟨code ++ code', he.trans he', hc.append hc' he.nextId⟩

theorem frame (h : Leads zero P b b1 Q) (hF : Stable b.nextId F) :
    Leads zero (fun ρ σ => P ρ σ ∧ F ρ σ) b b1 (fun ρ σ => Q ρ σ ∧ F ρ σ) := by
  obtain ⟨code, he, hc⟩ := h
  exact ⟨code, he, hc.frame hF⟩

theorem imp {P' Q' : Assertion} (h : Leads zero P b b1 Q) (hP : ∀ ρ σ, P' ρ σ → P ρ σ)
    (hQ : ∀ ρ σ, Q ρ σ → Q' ρ σ) : Leads zero P' b b1 Q' := by
  obtain ⟨code, he, hc⟩ := h
  exact ⟨code, he, hc.imp hP hQ⟩

theorem nextId (h : Leads zero P b b1 Q) : b.nextId ≤ b1.nextId := by
  obtain ⟨_, he, _⟩ := h
  exact he.nextId

theorem loops (h : Leads zero P b b1 Q) : b1.loops = b.loops := by
  obtain ⟨_, he, _⟩ := h
  exact he.loops

theorem keep (h : Leads zero P b b1 Q) (hP : Stable b.nextId P) :
    Leads zero P b b1 (fun ρ σ => Q ρ σ ∧ P ρ σ) :=
  (h.frame hP).imp (fun _ _ hp => ⟨hp, hp⟩) fun _ _ hq => hq

theorem emit {o : Op} (h : emit o b = .ok i b1)
    (hstep : ∀ ρ σ, P ρ σ → ∃ σ', step zero b.nextId o σ = some (σ', .normal) ∧ Same b.nextId σ σ' ∧ Q ρ σ') :
    Leads zero P b b1 Q := by
  exact ⟨_, (Emits.emit h).2, .op hstep⟩

theorem captured (h : Leads zero P { b with block := #[] } b1 Q) :
    Carries zero b.nextId P b1.block.toList Q ∧ Emits b { b1 with block := b.block } [] := by
  obtain ⟨code, he, hc⟩ := h
  have hblock : b1.block.toList = code := by simpa using he.block
  exact ⟨hblock ▸ hc, by simp, he.nextId, he.loops⟩

end Leads

/-! ## 2. Values that are at hand -/

def Holds (f : Env → Option Int32) (read : Store → Option Int32) : Assertion :=
  fun ρ σ => ∃ v, f ρ = some v ∧ read σ = some v

inductive IsOperand (n : StmtId) : Operand → Prop where
  | const (v : Int32) : IsOperand n (.const (.i32 v))
  | stmt {id : StmtId} (h : id < n) : IsOperand n (.stmt id)

theorem IsOperand.mono (h : IsOperand n o) (hn : n ≤ m) : IsOperand m o := by
  cases h with
  | const v => exact .const v
  | stmt h => exact .stmt (Nat.lt_of_lt_of_le h hn)

/-- An expression has been lowered to an integer that is held somewhere. -/
inductive IsInt : Lowered → Loc → Prop where
  | static (v : Int32) : IsInt (.static (.number (.i32 v))) (.const v)
  | folded (v : Int32) : IsInt (.value (.const (.i32 v)) .i32) (.const v)
  | value (id : StmtId) : IsInt (.value (.stmt id) .i32) (.temp id)
  | place (id : StmtId) : IsInt (.place (.local id .i32 [] .i32)) (.slot id)

theorem Holds.stable_loc {l : Loc} (h : l.Below n) : Stable n (Holds f (fun σ => l.read σ)) := by
  rintro ρ σ σ' hs ⟨v, hv, hr⟩
  exact ⟨v, hv, (Loc.read_same h hs).trans hr⟩

theorem Holds.stable (h : IsOperand n o) : Stable n (Holds f (fun σ => σ.value o)) := by
  rintro ρ σ σ' hs ⟨v, hv, hr⟩
  refine ⟨v, hv, ?_⟩
  cases h with
  | const w => exact hr
  | stmt hid => exact (hs _ hid).1.trans hr

theorem isOperand_emitValue {op : Op} (h : emitValue op b = .ok o b') : IsOperand b'.nextId o := by
  obtain ⟨i, b1, h1, hr⟩ := bind_ok h
  cases hr
  obtain ⟨rfl, hb⟩ := emit_ok h1
  exact .stmt (by simp [hb])

theorem Leads.emitValue {op : Op} (h : emitValue op b = .ok o b')
    (hstep : ∀ ρ σ, P ρ σ → ∃ v, f ρ = some v ∧ step zero b.nextId op σ = some (σ.setValue b.nextId v, .normal)) :
    Leads zero P b b' (Holds f (fun σ => σ.value o)) := by
  obtain ⟨i, b1, h1, hr⟩ := bind_ok h
  cases hr
  obtain ⟨rfl, -⟩ := emit_ok h1
  refine Leads.emit h1 fun ρ σ hp => ?_
  obtain ⟨v, hv, hs⟩ := hstep ρ σ hp
  exact ⟨_, hs, .setValue σ (Nat.le_refl _) v, v, hv, by simp⟩

theorem localLoad_leads (h : Lowering.emitValue (.localLoad id [] .i32) b = .ok o b') :
    IsOperand b'.nextId o ∧ ∀ f, Leads zero (Holds f fun σ => σ.slots id) b b' (Holds f fun σ => σ.value o) := by
  refine ⟨isOperand_emitValue h, fun f => Leads.emitValue h fun ρ σ hp => ?_⟩
  obtain ⟨v, hv, hs⟩ := hp
  exact ⟨v, hv, by simp only [step, hs, map_some]⟩

theorem rvalue_leads (hl : IsInt l loc) (hloc : loc.Below b.nextId)
    (h : rvalue l span b = .ok x b') :
    ∃ o, x = (o, .i32) ∧ IsOperand b'.nextId o ∧
      ∀ f, Leads zero (Holds f (fun σ => loc.read σ)) b b' (Holds f (fun σ => σ.value o)) := by
  cases hl with
  | static v =>
    cases h
    exact ⟨_, rfl, .const v, fun f => .refl fun _ _ hp => hp⟩
  | folded v =>
    cases h
    exact ⟨_, rfl, .const v, fun f => .refl fun _ _ hp => hp⟩
  | value id =>
    cases h
    exact ⟨_, rfl, .stmt hloc, fun f => .refl fun _ _ hp => hp⟩
  | place id =>
    have h' : (emitValue (.localLoad id [] .i32) >>= fun o => pure (o, .i32)) b = .ok x b' := h
    obtain ⟨o, b1, h1, hr⟩ := bind_ok h'
    cases hr
    exact ⟨o, rfl, localLoad_leads h1⟩

/-! ## 3. Operators -/

theorem typing_int {op : BinOp} (hdiv : op ≠ .div) (hpow : op ≠ .pow) (hmat : op ≠ .matMul) :
    op.typing .i32 .i32 = .ok ⟨.i32, .i32⟩ := by
  cases op <;> first | contradiction | rfl

theorem exists_binary {op : BinOp} (hdiv : op ≠ .div) (hpow : op ≠ .pow) (hmat : op ≠ .matMul)
    (x y : Int32) : ∃ v, binary zero op x y = some v := by
  cases op <;> first | contradiction | exact ⟨_, rfl⟩

theorem coerce_self {ty : Ty} : coerce o ty ty span = pure o := if_pos rfl

def emitBinary (op : BinOp) (o₁ o₂ : Operand) : Lower TypedOperand := do
  return (← emitValue (.binary op o₁ o₂ .i32 .i32), .i32)

theorem binary_int {op : BinOp} (hdiv : op ≠ .div) (hpow : op ≠ .pow) (hmat : op ≠ .matMul)
    (o₁ o₂ : Operand) (span : Span) : Lowering.binary op (o₁, .i32) (o₂, .i32) span =
      match o₁, o₂ with
      | .const x, .const y =>
        match Fold.binary op x y .i32 .i32 with
        | .ok (some v) => pure (.const v, .i32)
        | .ok none => emitBinary op (.const x) (.const y)
        | .error e => failAt span (.overflow e)
      | _, _ => emitBinary op o₁ o₂ := by
  unfold Lowering.binary
  simp only [typing_int hdiv hpow hmat, typed, pure_bind, if_neg hmat, coerce_self]
  cases o₁ with
  | stmt _ => cases o₂ <;> rfl
  | const x =>
    cases o₂ with
    | stmt _ => rfl
    | const y =>
      simp only [folded_const]
      rcases Fold.binary op x y .i32 .i32 with e | _ | v <;> rfl

/-- What has been emitted gives the operand the value of an operation on two others. -/
def Combines (zero : ByZero) (op : BinOp) (o₁ o₂ : Operand) (b b' : Builder) (o : Operand) : Prop :=
  IsOperand b'.nextId o ∧ ∀ f g : Env → Option Int32,
    Leads zero (fun ρ σ => Holds g (fun σ => σ.value o₂) ρ σ ∧ Holds f (fun σ => σ.value o₁) ρ σ) b b'
      (Holds (fun ρ => (f ρ).bind fun x => (g ρ).bind fun y => binary zero op x y) fun σ => σ.value o)

/-- What has been emitted gives the operand the value of a function of another. -/
def Maps (zero : ByZero) (g : Int32 → Int32) (o₁ : Operand) (b b' : Builder) (o : Operand) : Prop :=
  IsOperand b'.nextId o ∧ ∀ f : Env → Option Int32,
    Leads zero (Holds f fun σ => σ.value o₁) b b' (Holds (fun ρ => (f ρ).map g) fun σ => σ.value o)

theorem emitBinary_leads {op : BinOp} (hop : ∀ x y, ∃ v, binary zero op x y = some v)
    (h : emitBinary op o₁ o₂ b = .ok x b') :
    ∃ o, x = (o, .i32) ∧ Combines zero op o₁ o₂ b b' o := by
  obtain ⟨o, b1, h1, hr⟩ := bind_ok h
  cases hr
  refine ⟨o, rfl, isOperand_emitValue h1, fun f g => Leads.emitValue h1 ?_⟩
  rintro ρ σ ⟨⟨y, hg, hy⟩, x, hf, hx⟩
  obtain ⟨v, hv⟩ := hop x y
  refine ⟨v, ?_, ?_⟩
  · simp only [hf, hg, bind_some, hv]
  · simp only [step, hx, hy, bind_some, hv, map_some]

theorem binary_leads {op : BinOp} (hdiv : op ≠ .div) (hpow : op ≠ .pow)
    (ho1 : IsOperand b.nextId o₁) (ho2 : IsOperand b.nextId o₂)
    (h : Lowering.binary op (o₁, .i32) (o₂, .i32) span b = .ok x b') :
    ∃ o, x = (o, .i32) ∧ Combines zero op o₁ o₂ b b' o := by
  by_cases hmat : op = .matMul
  · subst hmat
    cases h
  have hop : ∀ x y, ∃ v, binary zero op x y = some v := exists_binary hdiv hpow hmat
  rw [binary_int hdiv hpow hmat] at h
  cases ho1 with
  | stmt _ => exact emitBinary_leads hop h
  | const x =>
    cases ho2 with
    | stmt _ => exact emitBinary_leads hop h
    | const y =>
      rcases hfold : Fold.binary op (.i32 x) (.i32 y) .i32 .i32 with e | _ | v
      · simp only [hfold] at h
        cases h
      · simp only [hfold] at h
        exact emitBinary_leads hop h
      · simp only [hfold] at h
        obtain ⟨w, rfl, hw⟩ := binary_of_fold zero hfold
        cases h
        refine ⟨_, rfl, .const w, fun f g => .refl ?_⟩
        rintro ρ σ ⟨⟨_, hg, hy⟩, _, hf, hx⟩
        cases hx
        cases hy
        exact ⟨w, by simp only [hf, hg, bind_some, hw], rfl⟩

theorem unaryOp_leads {op : UnaryOp} {g : Int32 → Int32} (hop : ∀ x, unaryOp op x = some (g x))
    (ho1 : IsOperand b.nextId o₁) (h : Lowering.unaryOp op o₁ .i32 b = .ok o b') :
    Maps zero g o₁ b b' o := by
  have hemit : emitValue (.unary op o₁ .i32) b = .ok o b' → Maps zero g o₁ b b' o := by
    intro he
    refine ⟨isOperand_emitValue he, fun f => Leads.emitValue he fun ρ σ hp => ?_⟩
    obtain ⟨x, hf, hx⟩ := hp
    refine ⟨g x, ?_, ?_⟩
    · simp only [hf, map_some]
    · simp only [step, hx, bind_some, hop, map_some]
  unfold Lowering.unaryOp at h
  cases ho1 with
  | stmt _ => exact hemit h
  | const x =>
    cases hfold : Fold.unary op (.i32 x) with
    | none =>
      simp only [hfold] at h
      exact hemit h
    | some v =>
      simp only [hfold] at h
      obtain rfl := unaryOp_of_fold hfold (hop x)
      cases h
      refine ⟨.const _, fun f => .refl ?_⟩
      rintro ρ σ ⟨_, hf, hx⟩
      cases hx
      exact ⟨g x, by simp only [hf, map_some], rfl⟩

theorem unary_leads {op : UnOp} (ho1 : IsOperand b.nextId o₁)
    (h : Lowering.unary op (o₁, .i32) span b = .ok x b') :
    ∃ o, x = (o, .i32) ∧ Maps zero (unary op) o₁ b b' o := by
  have hemitted : ∀ {op' : UnaryOp}, (∀ x, unaryOp op' x = some (unary op x)) →
      (Lowering.unaryOp op' o₁ .i32 >>= fun o => pure (o, Ty.i32)) b = .ok x b' →
      ∃ o, x = (o, .i32) ∧ Maps zero (unary op) o₁ b b' o := by
    intro op' hop hx
    obtain ⟨o, b1, h1, hr⟩ := bind_ok hx
    cases hr
    exact ⟨o, rfl, unaryOp_leads hop ho1 h1⟩
  cases op with
  | plus =>
    cases h
    refine ⟨o₁, rfl, ho1, fun f => .refl ?_⟩
    rintro ρ σ ⟨v, hf, hv⟩
    exact ⟨v, by simp only [hf]; rfl, hv⟩
  | neg | not | bitNot => exact hemitted (fun _ => rfl) h

theorem IsOperand.computed (ho : IsOperand b'.nextId o)
    (h : Leads zero P b b' (Holds f fun σ => σ.value o)) :
    ∃ loc, IsInt (.value o .i32) loc ∧ loc.Below b'.nextId ∧ Leads zero P b b' (Holds f fun σ => loc.read σ) := by
  cases ho with
  | const v => exact ⟨_, .folded v, trivial, h⟩
  | stmt hid => exact ⟨_, .value _, hid, h⟩

/-! ## 4. Choices -/

/-- Lowering gives an integer that has the value of a part of the program. -/
def Computes (zero : ByZero) (L : Layout) (scope : Scope) (m : Lower Lowered)
    (f : Env → Option Int32) : Prop :=
  ∀ ⦃b b' : Builder⦄ ⦃l : Lowered⦄, L.Fits b.nextId scope → m b = .ok l b' →
    ∃ loc, IsInt l loc ∧ loc.Below b'.nextId ∧ Leads zero (Agrees L) b b' (Holds f fun σ => loc.read σ)

variable {L : Layout} {scope : Scope} {m : Lower Lowered} {f g k : Env → Option Int32} {span : Span}

theorem Computes.rvalue {b b1 b2 : Builder} {l : Lowered} {x : TypedOperand}
    (h : Computes zero L scope m f) (hL : L.Fits b.nextId scope) (hm : m b = .ok l b1)
    (hr : rvalue l span b1 = .ok x b2) :
    ∃ o, x = (o, .i32) ∧ IsOperand b2.nextId o ∧ Leads zero (Agrees L) b b2 (Holds f fun σ => σ.value o) := by
  obtain ⟨loc, hl, hloc, h1⟩ := h hL hm
  obtain ⟨o, rfl, ho, h2⟩ := rvalue_leads hl hloc hr
  exact ⟨o, rfl, ho, h1.trans (h2 f)⟩

theorem Computes.capture {b2 : Builder} (h : Computes zero L scope m f) (hL : L.Fits b.nextId scope)
    (hm : Lowering.capture (m >>= fun l => Lowering.rvalue l span) b = .ok (code, x) b2) :
    ∃ o, x = (o, .i32) ∧ Carries zero b.nextId (Agrees L) code (Holds f fun σ => σ.value o) ∧ Emits b b2 [] := by
  obtain ⟨b1, h1, rfl, rfl⟩ := captureInto_ok hm
  obtain ⟨l, b0, hl, hr⟩ := bind_ok h1
  obtain ⟨o, rfl, ho, hleads⟩ := h.rvalue (b := { b with block := #[] }) hL hl hr
  exact ⟨o, rfl, hleads.captured⟩

theorem Carries.ifElse {c : Operand} {yes no : List IR.Stmt} {read : Store → Option Int32}
    (hyes : Carries zero n P yes (Holds g read)) (hno : Carries zero n P no (Holds k read)) :
    Carries zero n (fun ρ σ => Holds f (fun σ => σ.value c) ρ σ ∧ P ρ σ) [.ifElse id c yes no]
      (Holds (fun ρ => (f ρ).bind fun v => if v ≠ 0 then g ρ else k ρ) read) := by
  rintro fuel ρ σ ⟨⟨v, hf, hv⟩, hp⟩
  rw [runAll_singleton]
  simp only [run, hv, Holds, hf]
  by_cases hv0 : v = 0
  · simpa [hv0, Holds] using hno fuel ρ σ hp
  · simpa [hv0, Holds] using hyes fuel ρ σ hp

theorem discard_ok {α : Type} {m : Lower α} (h : discard m b = .ok u b') : ∃ a, m b = .ok a b' := by
  obtain ⟨a, ha, -⟩ := map_ok h
  exact ⟨a, ha⟩

theorem Carries.captureStore {slot : StmtId} {code' : List IR.Stmt} (hn : n ≤ slot)
    (h : Carries zero n P code (Holds f fun σ => σ.value o)) (hm : captureInto code.toArray (do
      let o ← coerce o .i32 .i32 span
      discard <| emit (.localStore slot [] o)) b = .ok (code', u) b') :
    Carries zero n P code' (Holds f fun σ => σ.slots slot) ∧ Emits b b' [] := by
  obtain ⟨b1, h1, rfl, rfl⟩ := captureInto_ok hm
  rw [coerce_self, pure_bind] at h1
  obtain ⟨i, h2⟩ := discard_ok h1
  obtain ⟨rfl, rfl⟩ := emit_ok h2
  refine ⟨?_, by simp, Nat.le_succ _, rfl⟩
  rw [Array.toList_push, List.toList_toArray]
  refine h.append (.op fun ρ σ ⟨v, hf, hv⟩ => ?_) (Nat.le_refl n)
  exact ⟨σ.setSlot slot v, by simp only [step, hv, map_some], .setSlot σ hn v, v, hf, by simp⟩

theorem Computes.select {cond yes no : Lower Lowered} {condSpan yesSpan noSpan : Span}
    (hcond : Computes zero L scope cond f) (hyes : Computes zero L scope yes g)
    (hno : Computes zero L scope no k) :
    Computes zero L scope (select cond yes no condSpan yesSpan noSpan span)
      fun ρ => (f ρ).bind fun v => if v ≠ 0 then g ρ else k ρ := by
  intro b b' l hL h
  obtain ⟨lc, b1, h1, k1⟩ := bind_ok h
  obtain ⟨x, b2, h2, k2⟩ := bind_ok k1
  obtain ⟨c, rfl, hc, hleads⟩ := hcond.rvalue hL h1 h2
  have hL2 : L.Fits b2.nextId scope := hL.mono hleads.nextId
  have hcond2 := hleads.keep hL.stable
  cases hc with
  | const v =>
    have k3 : (if (Literal.i32 v).truthy then yes else no) b2 = .ok l b' := k2
    -- one branch is lowered, and what it gives is handed on
    have hbranch : ∀ {r : Env → Option Int32} {mr : Lower Lowered}, Computes zero L scope mr r → mr b2 = .ok l b' →
        (∀ ρ, (if v ≠ 0 then g ρ else k ρ) = r ρ) → ∃ loc, IsInt l loc ∧ loc.Below b'.nextId ∧
          Leads zero (Agrees L) b b'
            (Holds (fun ρ => (f ρ).bind fun v => if v ≠ 0 then g ρ else k ρ) fun σ => loc.read σ) := by
      intro r mr hr hm hif
      obtain ⟨loc, hl, hloc, hb⟩ := hr hL2 hm
      refine ⟨loc, hl, hloc, hcond2.trans ((hb.frame (F := Holds f fun σ => σ.value (.const (.i32 v)))
        (.stable (.const v))).imp ?_ ?_)⟩
      · exact fun ρ σ hp => ⟨hp.2, hp.1⟩
      · rintro ρ σ ⟨⟨w, hw, hrw⟩, u, hu, huv⟩
        cases huv
        exact ⟨w, by simp only [hu, bind_some, hif, hw], hrw⟩
    by_cases hv : v = 0
    · simp only [hv] at k3
      exact hbranch hno k3 fun ρ => by simp [hv]
    · have ht : (Literal.i32 v).truthy = true := by simpa [Literal.truthy] using hv
      rw [if_pos ht] at k3
      exact hbranch hyes k3 fun ρ => by simp [hv]
  | @stmt id hid =>
    obtain ⟨⟨yesBody, xa⟩, b3, h3, k3⟩ := bind_ok k2
    obtain ⟨a, rfl, hcyes, he3⟩ := hyes.capture hL2 h3
    obtain ⟨⟨noBody, xb⟩, b4, h4, k4⟩ := bind_ok k3
    obtain ⟨o, rfl, hcno, he4⟩ := hno.capture (hL2.mono he3.nextId) h4
    obtain ⟨ty, b5, h5, k5⟩ := bind_ok k4
    obtain ⟨hty, rfl⟩ := typed_ok h5
    have hi32 : ty = .i32 := by
      cases hty
      rfl
    subst hi32
    obtain ⟨slot, b6, h6, k6⟩ := bind_ok k5
    obtain ⟨rfl, he6⟩ := Emits.emit h6
    have hslot : b2.nextId ≤ b5.nextId := Nat.le_trans he3.nextId he4.nextId
    obtain ⟨⟨yes', _⟩, b7, h7, k7⟩ := bind_ok k6
    obtain ⟨hcyes', he7⟩ := hcyes.captureStore hslot h7
    obtain ⟨⟨no', _⟩, b8, h8, k8⟩ := bind_ok k7
    obtain ⟨hcno', he8⟩ := (hcno.mono he3.nextId).captureStore hslot h8
    obtain ⟨i, b9, h9, k9⟩ := bind_ok k8
    obtain ⟨_, b10, h10, k10⟩ := bind_ok k9
    have he10 := Emits.push h9 h10
    obtain ⟨o', b11, h11, k11⟩ := bind_ok k10
    cases k11
    -- the slot is made, and both branches store into it
    have hbranches : Leads zero (fun ρ σ => Holds f (fun σ => σ.value (.stmt id)) ρ σ ∧ Agrees L ρ σ) b2 b10
        (Holds (fun ρ => (f ρ).bind fun v => if v ≠ 0 then g ρ else k ρ) fun σ => σ.slots b5.nextId) := by
      refine ⟨_, (((he3.trans he4).trans he6).trans (he7.trans he8)).trans he10,
        .append (.op fun ρ σ hp => ?_) (.ifElse hcyes' hcno') (Nat.le_refl _)⟩
      have hs : Same b2.nextId σ (σ.setSlot b5.nextId 0) := .setSlot σ hslot 0
      exact ⟨_, rfl, hs, ((Holds.stable (.stmt hid)).and hL2.stable) ρ σ _ hs hp⟩
    obtain ⟨ho', hload⟩ := localLoad_leads h11
    exact ho'.computed (hcond2.trans (hbranches.trans (hload _)))

/-! ## 5. Expressions -/

theorem Computes.pure (hl : IsInt l loc) (hloc : ∀ n, L.Fits n scope → loc.Below n)
    (hread : ∀ ρ σ, Agrees L ρ σ → Holds f (fun σ => loc.read σ) ρ σ) :
    Computes zero L scope (Pure.pure l) f := by
  intro b b' _ hL h
  cases h
  exact ⟨loc, hl, hloc _ hL, .refl hread⟩

theorem Computes.const {v : Int32} (hf : ∀ ρ, f ρ = some v) :
    Computes zero L scope (Pure.pure (.static (.number (.i32 v)))) f :=
  .pure (.static v) (fun _ _ => trivial) fun ρ _ _ => ⟨v, hf ρ, rfl⟩

theorem computes_var {x : String} (hx : L.names.contains x) :
    Computes zero L scope (named (scope.get? x) x span) fun ρ => ρ.lookup x := by
  intro b b' l hL h
  obtain ⟨loc, hloc⟩ := Layout.exists_lookup hx
  have hbelow : ∀ n, L.Fits n scope → loc.Below n := fun n hn => hn.below _ (Layout.mem_of_lookup hloc)
  have hread : ∀ ρ σ, Agrees L ρ σ → Holds (fun ρ => ρ.lookup x) (fun σ => loc.read σ) ρ σ :=
    fun ρ σ ha => ha.lookup hloc
  rw [hL.found x loc hloc] at h
  cases loc with
  | const v => exact Computes.pure (.static v) hbelow hread hL h
  | slot id => exact Computes.pure (.place id) hbelow hread hL h
  | temp id => exact Computes.pure (.value id) hbelow hread hL h

/-- The statements of an expression of integers end and give its value. -/
theorem computes_lowerExpr {ctx : Context} :
    (e : Expr) → integerExpr L.names e → Computes zero L scope (lowerExpr ctx scope e) fun ρ => eval zero ρ e
  | .int span n, he => by
    have hn : n < 2 ^ 31 := by simpa [integerExpr] using he
    have hlower : lowerExpr ctx scope (.int span n) = Pure.pure (.static (.number (.i32 (.ofNat n)))) := by
      unfold lowerExpr intLiteral
      rw [if_pos hn]
    rw [hlower]
    exact .const fun ρ => by rw [eval, if_pos hn]
  | .bool span v, _ => by
    exact .const fun ρ => by cases v <;> rfl
  | .var span x, he => by
    exact computes_var (by simpa [integerExpr] using he)
  | .unary span op e, he => by
    intro b b' l hL h
    obtain ⟨le, b1, h1, k1⟩ := bind_ok h
    obtain ⟨x, b2, h2, k2⟩ := bind_ok k1
    obtain ⟨o, rfl, ho, he2⟩ := (computes_lowerExpr e (by simpa [integerExpr] using he)).rvalue hL h1 h2
    obtain ⟨y, b3, h3, k3⟩ := bind_ok k2
    obtain ⟨o', rfl, ho', hop⟩ := unary_leads ho h3
    cases k3
    exact ho'.computed (he2.trans (hop _))
  | .binary span op e1 e2, he => by
    intro b b' l hL h
    simp only [integerExpr, Bool.and_eq_true, bne_iff_ne] at he
    obtain ⟨⟨⟨hdiv, hpow⟩, hint1⟩, hint2⟩ := he
    obtain ⟨l1, b1, h1, k1⟩ := bind_ok h
    obtain ⟨x, b2, h2, k2⟩ := bind_ok k1
    obtain ⟨o₁, rfl, ho1, he1⟩ := (computes_lowerExpr e1 hint1).rvalue hL h1 h2
    have hL2 := hL.mono he1.nextId
    obtain ⟨l2, b3, h3, k3⟩ := bind_ok k2
    obtain ⟨y, b4, h4, k4⟩ := bind_ok k3
    obtain ⟨o₂, rfl, ho2, he2⟩ := (computes_lowerExpr e2 hint2).rvalue hL2 h3 h4
    obtain ⟨z, b5, h5, k5⟩ := bind_ok k4
    obtain ⟨o, rfl, ho, hop⟩ := binary_leads hdiv hpow (ho1.mono he2.nextId) ho2 h5
    cases k5
    -- the left value is still there when the right one has been computed
    have hboth := (he1.keep hL.stable).trans
      ((he2.frame (.stable ho1)).imp (fun ρ σ hp => ⟨hp.2, hp.1⟩) fun _ _ hq => hq)
    exact ho.computed (hboth.trans (hop _ _))
  | .conditional span c yes no, he => by
    simp only [integerExpr, Bool.and_eq_true] at he
    exact (computes_lowerExpr c he.1.1).select (computes_lowerExpr yes he.1.2) (computes_lowerExpr no he.2)

end ArrayKernel.Meaning
