import ArrayKernel.Proofs.Lowering.Steps
import ArrayKernel.Proofs.Typing.Rules

/-!
# Arithmetic

Conversions and operators give operands of the types that they say, and the statements that they
emit are well typed.
-/

namespace ArrayKernel.Lowering

open IR Surface List

variable {H : Host} {C : Ctx} {b : Builder} {e : Env} {l o r x y : Operand}
  {operandTy out target ty : Ty} {op : BinOp} {s : Scalar} {is : List Operand} {span : Span}

/-! ## 1. Statements without references to memory -/

theorem Holds.hasTy (h : Holds H e o ty) (ht : H.typed) : HasTy e.all o ty :=
  (h.typed ht).mono e.here_subset

/-- The statement names operands only: it does not go through an address or a slot, and is not the
result. -/
structure Plain (o : Op) : Prop where
  elementIndices : o.elementIndices = []
  ptr : o.ptr? = none
  slot : o.slot? = none
  not_ret : ∀ v ty, o ≠ .ret v ty

theorem OpOk.ofPlain {ret : Option Ty} {o : Op} (hp : Plain o) (hs : Sourced H.toResources o)
    (ht : Tracked H e o) (ho : ∀ x ∈ o.operands, Visible e.here x)
    (hflat : H.flat → ∀ ty ∈ o.types, ty.isStruct = false)
    (htyped : H.typed → o.Typed H.toResources e.all) : OpOk H e ret o where
  refs :=
    { operands := ho
      elementIndices := by simp [hp.elementIndices]
      ptr := by simp [hp.ptr]
      slot := by simp [hp.slot] }
  sourced := hs
  flat := hflat
  typed := htyped
  ret v ty h := absurd h (hp.not_ret v ty)
  tracked := ht

theorem OpOk.unary {op : UnaryOp} {t : Ty} (ho : Holds H e o t) (ret : Option Ty)
    (hflat : H.flat → (op.resultTy t).isStruct = false) :
    OpOk H e ret (.unary op o (op.resultTy t)) := by
  refine .ofPlain ⟨rfl, rfl, rfl, nofun⟩ trivial trivial ?_ ?_ fun ht => ⟨t, ho.hasTy ht, rfl⟩
  · simpa [Op.operands] using ho.visible
  · simpa [Op.types] using hflat

theorem OpOk.compose {parts : List Operand} (hp : ∀ p ∈ parts, Holds H e p (.scalar s))
    (ret : Option Ty) (hs : H.typed → ty.scalar? = some s) (hflat : H.flat → ty.isStruct = false)
    (hl : H.typed → parts.length = ty.size) : OpOk H e ret (.compose parts ty) := by
  refine .ofPlain ⟨rfl, rfl, rfl, nofun⟩ trivial trivial (fun x hx => (hp x hx).visible) ?_ fun ht => ?_
  · simpa [Op.types] using hflat
  · exact ⟨hl ht, s, hs ht, fun p hm => (hp p hm).hasTy ht⟩

theorem OpOk.binary {t : BinaryTyping} (hop : op ≠ .matMul)
    (ht : op.typing t.operand t.operand = .ok t) (hx : Holds H e x t.operand)
    (hy : Holds H e y t.operand) (ret : Option Ty) :
    OpOk H e ret (.binary op x y t.operand t.result) := by
  refine .ofPlain ⟨rfl, rfl, rfl, nofun⟩ trivial trivial ?_ ?_ fun h => ?_
  · simpa [Op.operands] using ⟨hx.visible, hy.visible⟩
  · have hn := BinOp.typing_not_struct ht
    simp [Op.types, hn]
  · simp only [Op.Typed, if_neg hop]
    exact ⟨hx.hasTy h, hy.hasTy h, ht⟩

theorem OpOk.extract (ho : Holds H e o ty) (hi : ∀ x ∈ is, Holds H e x .i32)
    (hsel : ty.select is.length = some out) (hout : out.isStruct = false) (ret : Option Ty) :
    OpOk H e ret (.extract o is out) := by
  refine .ofPlain ⟨rfl, rfl, rfl, nofun⟩ trivial trivial ?_ ?_ fun h => ?_
  · intro x hx
    rcases mem_cons.1 hx with rfl | hx
    · exact ho.visible
    · exact (hi x hx).visible
  · simpa [Op.types] using fun _ => hout
  · exact ⟨fun x hx => (hi x hx).hasTy h, ty, ho.hasTy h, hsel⟩

/-! ## 2. Conversions -/

theorem runs_castScalar {source target : Scalar} (ho : Holds H (C.env b) o (.scalar source)) :
    Runs H C b (castScalar o source target) fun e x => Holds H e x (.scalar target) := by
  unfold castScalar
  split
  · rename_i h
    exact Runs.pure (h ▸ ho)
  · cases o with
    | const l =>
      refine Runs.pure ?_
      have h := Holds.const (H := H) (C.env b) (l.cast target)
      rwa [Literal.ty, Literal.scalar_cast] at h
    | stmt i => exact Runs.emitValue (OpOk.unary ho _ fun _ => rfl) rfl fun _ => rfl

theorem runs_spread {t : Scalar} {n : Nat} (ho : Holds H (C.env b) o (.scalar s))
    (hn : n = target.size) (ht : target.scalar? = some t) :
    Runs H C b (do emitValue (.compose (List.replicate n (← castScalar o s t)) target))
      fun e x => Holds H e x target := by
  have hstruct : target.isStruct = false := by
    cases target with
    | struct ms => cases ht
    | _ => rfl
  refine (runs_castScalar ho).bind fun x b' _ hx => ?_
  refine .emitValue (.compose ?_ _ (fun _ => ht) (fun _ => hstruct) fun _ => by simp [hn]) rfl fun _ => hstruct
  intro p hp
  rw [eq_of_mem_replicate hp]
  exact hx

theorem runs_coerce {source : Ty} (ho : Holds H (C.env b) o source) :
    Runs H C b (coerce o source target span) fun e x => Holds H e x target := by
  unfold coerce
  split
  · rename_i h
    exact .pure (h ▸ ho)
  · split
    · exact runs_castScalar ho
    · exact runs_spread ho rfl rfl
    · exact runs_spread ho rfl rfl
    · split
      · rename_i hnm
        subst hnm
        exact .emitValue (.unary ho _ fun _ => rfl) rfl fun _ => rfl
      · exact .fail
    · exact .fail

/-! ## 3. Operators -/

theorem folded_ok {v : Option Literal} {b b' : Builder}
    (h : folded op l r operandTy ty span b = .ok v b') :
    b' = b ∧ ∀ w ∈ v, ∃ x y s s', l = .const x ∧ r = .const y ∧ operandTy = .scalar s ∧ ty = .scalar s'
      ∧ Fold.binary op x y s s' = .ok (some w) := by
  unfold folded at h
  split at h
  · rename_i x y s s'
    cases hv : Fold.binary op x y s s' with
    | error e =>
      rw [hv] at h
      cases h
    | ok v' =>
      rw [hv] at h
      cases h
      exact ⟨rfl, fun w hw => ⟨x, y, s, s', rfl, rfl, rfl, rfl, by rw [hv, Option.mem_def.1 hw]⟩⟩
  · cases h
    exact ⟨rfl, nofun⟩

theorem Runs.folded {α : Type} {f : Option Literal → Lower α} {Q : Env → α → Prop}
    (hsome : ∀ x y s s' w, l = .const x → r = .const y → operandTy = .scalar s → ty = .scalar s' →
      Fold.binary op x y s s' = .ok (some w) → Runs H C b (f (some w)) Q)
    (hnone : Runs H C b (f none) Q) : Runs H C b (Lowering.folded op l r operandTy ty span >>= f) Q := by
  intro hg a b' h
  obtain ⟨v, b1, h1, h2⟩ := bind_ok h
  obtain ⟨rfl, hv⟩ := folded_ok h1
  cases v with
  | none => exact hnone hg a b' h2
  | some w =>
    obtain ⟨x, y, s, s', hl, hr, ho, ht, hw⟩ := hv w rfl
    exact hsome x y s s' w hl hr ho ht hw hg a b' h2

theorem runs_binary {op : BinOp} {lhs rhs : TypedOperand} {span : Span}
    (hl : Holds H (C.env b) lhs.1 lhs.2) (hr : Holds H (C.env b) rhs.1 rhs.2) :
    Runs H C b (binary op lhs rhs span) fun e x =>
      Holds H e x.1 x.2 ∧ ∃ t, op.typing lhs.2 rhs.2 = .ok t ∧ x.2 = t.result := by
  refine Runs.typed fun t ht => ?_
  have hn := BinOp.typing_not_struct ht
  split
  · rename_i hop
    subst hop
    obtain ⟨hm, ho⟩ := BinOp.typing_matMul ht
    refine (runs_coerce hl).bind fun l b1 h1 hl' => ?_
    refine (runs_coerce (hr.mono h1)).bind fun r b2 h2 hr' => ?_
    refine (Runs.emitValue ?_ rfl fun _ => hn.2).bind fun x b3 h3 hx => Runs.pure ⟨hx, t, ht, rfl⟩
    refine OpOk.ofPlain ⟨rfl, rfl, rfl, nofun⟩ trivial trivial ?_ ?_ fun h => ?_
    · simpa [Op.operands] using ⟨(hl'.mono h2).visible, hr'.visible⟩
    · simp [Op.types, hn]
    · exact ⟨_, _, (hl'.mono h2).hasTy h, hr'.hasTy h, Ty.matmul_withScalar hm⟩
  · rename_i hop
    refine (runs_coerce hl).bind fun l b1 h1 hl' => ?_
    refine (runs_coerce (hr.mono h1)).bind fun r b2 h2 hr' => ?_
    have hemit : Runs H C b2 (emitValue (.binary op l r t.operand t.result) >>= fun x => pure (x, t.result))
        fun e x => Holds H e x.1 x.2 ∧ ∃ t, op.typing lhs.2 rhs.2 = .ok t ∧ x.2 = t.result :=
      (Runs.emitValue (OpOk.binary hop (BinOp.typing_self hop ht) (hl'.mono h2) hr' _) rfl
        fun _ => hn.2).bind fun x b3 h3 hx => Runs.pure ⟨hx, t, ht, rfl⟩
    refine Runs.folded (fun x y s s' v _ _ _ hs hv => ?_) hemit
    refine Runs.pure ⟨?_, t, ht, rfl⟩
    have hc := Holds.const (H := H) (C.env b2) v
    rwa [Literal.ty, Fold.binary_scalar hv, ← hs] at hc

theorem runs_binary_scalar (hop : op.typing (.scalar s) (.scalar s) = .ok ⟨.scalar s, .scalar s⟩)
    (hx : Holds H (C.env b) x (.scalar s)) (hy : Holds H (C.env b) y (.scalar s)) :
    Runs H C b (do return (← binary op (x, .scalar s) (y, .scalar s) span).1) fun e z => Holds H e z (.scalar s) := by
  refine (@runs_binary H C b op (x, .scalar s) (y, .scalar s) span hx hy).bind fun z b' _ hz => .pure ?_
  obtain ⟨hz, t, ht, hty⟩ := hz
  rw [hop] at ht
  cases ht
  rwa [hty] at hz

theorem runs_unaryOp {op : UnaryOp} {t : Ty} (ho : Holds H (C.env b) o t) (hty : ty = op.resultTy t)
    (hn : ty.isStruct = false) : Runs H C b (unaryOp op o ty) fun e x => Holds H e x ty := by
  subst hty
  unfold unaryOp
  split
  · rename_i s l hs
    split
    · rename_i v hv
      refine .pure ⟨trivial, fun _ => hn, fun h => ?_⟩
      have hl : l.ty = t := ho.const_ty h
      show v.ty = _
      rw [Fold.unary_ty hv, hl]
    · exact .emitValue (.unary ho _ fun _ => hn) rfl fun _ => hn
  · exact .emitValue (.unary ho _ fun _ => hn) rfl fun _ => hn

theorem runs_unary {op : UnOp} {x : TypedOperand} (hx : Holds H (C.env b) x.1 x.2) :
    Runs H C b (unary op x span) fun e y => Holds H e y.1 y.2 := by
  refine .typed fun ty ht => ?_
  obtain ⟨hty, hs⟩ := UnOp.typing_eq ht
  have hstep : ∀ {op' : UnaryOp}, ty = op'.resultTy x.2 → ty.isStruct = false →
      Runs H C b (unaryOp op' x.1 ty >>= fun o => pure (o, ty)) fun e y => Holds H e y.1 y.2 :=
    fun h hn => (runs_unaryOp hx h hn).bind fun o b1 h1 ho => .pure ho
  cases op with
  | plus => exact .pure (hty ▸ hx)
  | neg => exact hstep hty (hty ▸ hs)
  | not => exact hstep hty (by rw [hty]; simpa [UnOp.underlying?, UnaryOp.resultTy] using hs)
  | bitNot => exact hstep hty (hty ▸ hs)

def IsInt (op : BinOp) : Prop := op ≠ .matMul ∧ op.typing .i32 .i32 = .ok ⟨.i32, .i32⟩

instance (op : BinOp) : Decidable (IsInt op) := inferInstanceAs (Decidable (_ ∧ _))

theorem runs_intBinary (hop : IsInt op) (hx : Holds H (C.env b) x .i32)
    (hy : Holds H (C.env b) y .i32) :
    Runs H C b (intBinary op x y) fun e z => Holds H e z .i32 ∧ IntResult e.here op x y z := by
  refine Runs.folded (fun l m s s' v hl hm hs hs' hv => ?_) ?_
  · cases hs
    cases hs'
    refine Runs.pure ⟨?_, .folded hl hm hv⟩
    have hc := Holds.const (H := H) (C.env b) v
    rwa [Literal.ty, Fold.binary_scalar hv] at hc
  · dsimp only
    split
    · rename_i h
      simp only [Bool.and_eq_true, decide_eq_true_eq, isInt] at h
      exact Runs.pure ⟨hy, .zeroLeft h.1 h.2⟩
    split
    · rename_i h
      simp only [Bool.and_eq_true, decide_eq_true_eq, isInt] at h
      exact Runs.pure ⟨hx, .zeroRight h.1 h.2⟩
    split
    · rename_i h
      simp only [Bool.and_eq_true, decide_eq_true_eq, isInt] at h
      exact Runs.pure ⟨hx, .oneRight h.1 h.2⟩
    split
    · rename_i h
      simp only [Bool.and_eq_true, decide_eq_true_eq, isInt] at h
      exact Runs.pure ⟨hy, .oneLeft h.1 h.2⟩
    · refine (Runs.emit (OpOk.binary (t := ⟨.i32, .i32⟩) hop.1 hop.2 hx hy _)).bind fun i b' h hi => Runs.pure ?_
      exact ⟨Holds.stmt hi rfl fun _ => rfl, .computed hi⟩

/-! ## 4. Components -/

inductive Selects : Ty → List Operand → Ty → Prop where
  | component {s : Scalar} {n : Dim} {i : Operand} : Selects (.vector s n) [i] (.scalar s)
  | row {r c : Dim} {i : Operand} : Selects (.matrix r c) [i] (.vector .f32 c)
  | entry {r c : Dim} {i j : Operand} : Selects (.matrix r c) [i, j] .f32

theorem runs_extract (h : Selects ty is out) (ho : Holds H (C.env b) o ty)
    (hi : ∀ x ∈ is, Holds H (C.env b) x .i32) :
    Runs H C b (extract o ty is) fun e x => x.2 = out ∧ Holds H e x.1 out := by
  have hsel : ty.select is.length = some out := by cases h <;> rfl
  have hout : out.isStruct = false := by cases h <;> rfl
  have heq : extract o ty is = emitValue (.extract o is out) >>= fun x => pure (x, out) := by cases h <;> rfl
  rw [heq]
  exact (Runs.emitValue (OpOk.extract ho hi hsel hout _) rfl fun _ => hout).bind fun x b' _ hx => Runs.pure ⟨rfl, hx⟩

theorem runs_components (ho : Holds H (C.env b) o ty) : Runs H C b (components o ty) fun e xs =>
      (ty.isStruct = false → xs.length = ty.size) ∧ ∀ x ∈ xs, Holds H e x ty.component := by
  have hpick : ∀ {is : List Operand} {b' : Builder}, Selects ty is ty.component →
      (∀ x ∈ is, ∃ v, x = .int v) → C.env b ≤ C.env b' →
      Runs H C b' (extract o ty is >>= fun x => pure x.1) fun e x => Holds H e x ty.component :=
    fun hs his hb => (runs_extract hs (ho.mono hb) fun x hx => by
      obtain ⟨v, rfl⟩ := his x hx
      exact Holds.int _ v).bind fun x b'' _ hx => Runs.pure hx.2
  cases ty with
  | scalar s =>
    refine Runs.pure ⟨fun _ => rfl, fun x hx => ?_⟩
    rw [mem_singleton.1 hx]
    exact ho
  | vector s n =>
    refine (Runs.mapAll (fun he h => h.mono he) fun i _ b' hb => hpick .component (by simp) hb).imp
      fun e xs _ h => ⟨fun _ => ?_, h.2⟩
    rw [h.1, length_range]
    rfl
  | matrix r c =>
    refine (Runs.flatMapM (n := c.toNat) (fun he h => h.mono he) fun i _ b' hb => ?_).imp
      fun e xs _ h => ⟨fun _ => ?_, h.2⟩
    · refine (Runs.mapAll (fun he h => h.mono he) fun j _ b'' hb' =>
        hpick .entry (by simp) (Env.le_trans hb hb')).imp fun e xs _ h => ⟨?_, h.2⟩
      rw [h.1, length_range]
    · rw [h.1, length_range]
      rfl
  | struct ms => exact Runs.pure ⟨nofun, nofun⟩

end ArrayKernel.Lowering
