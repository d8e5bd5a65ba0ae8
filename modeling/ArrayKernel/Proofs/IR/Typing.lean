import ArrayKernel.Proofs.IR.Definitions
import Mathlib.Data.List.Forall2

/-!
# Types of statements

When a simple statement is well typed, given the definitions that its operands name. `PartAt`
follows the way from an element of a field to a part of it, and the arithmetic that computes the
offset along with it.
-/

namespace ArrayKernel

def Ty.select : Ty → Nat → Option Ty
  | t, 0 => some t
  | t, n + 1 => t.index?.bind (·.select n)

theorem Ty.select_add (t : Ty) (m n : Nat) : t.select (m + n) = (t.select m).bind (·.select n) := by
  induction m generalizing t with
  | zero => simp [Ty.select]
  | succ m ih =>
    rw [Nat.succ_add, Ty.select, Ty.select]
    cases t.index? with
    | none => rfl
    | some u => simpa using ih u

def UnaryOp.resultTy : UnaryOp → Ty → Ty
  | .neg, t | .bitNot, t => t
  | .not, t => t.withScalar .i32
  | .cast s, t | .bitcast s, t => t.withScalar s

end ArrayKernel

namespace ArrayKernel.IR

open Surface

structure Resources where
  field : FieldInfo → Prop
  texture : TextureInfo → Prop

/-! ## 1. Parts of elements -/

/-- What integer arithmetic on addresses gives: a constant, one of the operands where the other is
neutral, or the value of a statement. -/
inductive IntResult (d : Defs) (op : BinOp) (a b : Operand) : Operand → Prop where
  | folded {x y v : Literal} (ha : a = .const x) (hb : b = .const y)
    (h : Fold.binary op x y .i32 .i32 = .ok (some v)) : IntResult d op a b (.const v)
  | zeroLeft (hop : op = .add) (ha : a = .int 0) : IntResult d op a b b
  | zeroRight (hop : op = .add) (hb : b = .int 0) : IntResult d op a b a
  | oneRight (hop : op = .mul) (hb : b = .int 1) : IntResult d op a b a
  | oneLeft (hop : op = .mul) (ha : a = .int 1) : IntResult d op a b b
  | computed {i : StmtId} (h : (i, Def.op (.binary op a b .i32 .i32)) ∈ d) : IntResult d op a b (.stmt i)

/-- The operand is the offset, in components, of a part of the given type inside an element. -/
inductive PartAt (d : Defs) (elem : Ty) : Operand → Ty → Prop where
  | whole : PartAt d elem (.int 0) elem
  | member {o o' : Operand} {ms : Members} {name : String} {start : Nat} {ty : Ty} :
    PartAt d elem o (.struct ms) → ms.find? name = some (start, ty) → IntResult d .add o (.int start) o' →
    PartAt d elem o' ty
  | component {o o' i : Operand} {s : Scalar} {n : Dim} :
    PartAt d elem o (.vector s n) → IntResult d .add o i o' → PartAt d elem o' (.scalar s)
  | row {o o' i p : Operand} {r c : Dim} :
    PartAt d elem o (.matrix r c) → IntResult d .mul i (.int c.toNat) p → IntResult d .add o p o' →
    PartAt d elem o' (.vector .f32 c)
  | entry {o o' i j p q : Operand} {r c : Dim} :
    PartAt d elem o (.matrix r c) → IntResult d .mul i (.int c.toNat) p → IntResult d .add p j q →
    IntResult d .add o q o' → PartAt d elem o' .f32

/-- The id names an address in a field of the given id, of a part of the given type. -/
def Resources.IsPart (r : Resources) (d : Defs) (field : Nat) (ptr : StmtId) (ty : Ty) : Prop :=
  ∃ is offset f, (ptr, Def.op (.globalPtr field is offset)) ∈ d ∧ r.field f ∧ f.id = field
    ∧ PartAt d f.elem offset ty

/-- The slot, or the part of it that the indices select, has the given type. -/
def SlotPart (d : Defs) (slot : StmtId) (is : List Operand) (ty : Ty) : Prop :=
  (∀ x ∈ is, HasTy d x .i32) ∧ ∃ slotTy, IsSlot d slot slotTy ∧ slotTy.select is.length = some ty

section Monotone

variable {d d' : Defs} (h : d ⊆ d') {ty : Ty}
include h

theorem IntResult.mono {op : BinOp} {a b o : Operand} (ho : IntResult d op a b o) :
    IntResult d' op a b o := by
  cases ho with
  | folded ha hb hf => exact .folded ha hb hf
  | zeroLeft hop ha => exact .zeroLeft hop ha
  | zeroRight hop hb => exact .zeroRight hop hb
  | oneRight hop hb => exact .oneRight hop hb
  | oneLeft hop ha => exact .oneLeft hop ha
  | computed hm => exact .computed (h hm)

theorem PartAt.mono {elem : Ty} {o : Operand} (ho : PartAt d elem o ty) : PartAt d' elem o ty := by
  induction ho with
  | whole => exact .whole
  | member _ hf hr ih => exact .member ih hf (hr.mono h)
  | component _ hr ih => exact .component ih (hr.mono h)
  | row _ hp hr ih => exact .row ih (hp.mono h) (hr.mono h)
  | entry _ hp hq hr ih => exact .entry ih (hp.mono h) (hq.mono h) (hr.mono h)

theorem Resources.IsPart.mono {r : Resources} {field : Nat} {ptr : StmtId}
    (hp : r.IsPart d field ptr ty) : r.IsPart d' field ptr ty := by
  obtain ⟨is, offset, f, hm, hf, hid, hpart⟩ := hp
  exact ⟨is, offset, f, h hm, hf, hid, hpart.mono h⟩

theorem SlotPart.mono {slot : StmtId} {is : List Operand} (hs : SlotPart d slot is ty) :
    SlotPart d' slot is ty := by
  obtain ⟨hi, slotTy, hslot, hsel⟩ := hs
  exact ⟨fun x hx => (hi x hx).mono h, slotTy, hslot.mono h, hsel⟩

end Monotone

/-! ## 2. Statements -/

abbrev texelTy : Ty := .vector .f32 .four

/-- The type of the coordinates of a texel: one number for each dimension, whole except where a
texture is sampled. -/
def TextureOp.coordTy? (op : TextureOp) (rank : Nat) : Option Ty :=
  let s : Scalar := if op = .sample then .f32 else .i32
  if rank = 1 then some (.scalar s) else (Ty.ofVector s rank).toOption

namespace Op

/-- Whether the statement is well typed, given what its operands name. -/
def Typed (r : Resources) (d : Defs) : Op → Prop
  | alloca .. | random _ | argLoad .. | loopControl _ => True
  | localLoad slot is ty => SlotPart d slot is ty
  | localStore slot is v => ∃ ty, SlotPart d slot is ty ∧ HasTy d v ty
  | globalPtr field is offset =>
    (∀ x ∈ is, HasTy d x .i32) ∧ HasTy d offset .i32 ∧ ∃ f, r.field f ∧ f.id = field ∧ is.length = f.shape.length
  | globalLoad ptr ty => ∃ field, r.IsPart d field ptr ty
  | globalStore ptr v => ∃ field ty, r.IsPart d field ptr ty ∧ HasTy d v ty
  | binary op x y operandTy ty =>
    if op = .matMul then ∃ a b, HasTy d x a ∧ HasTy d y b ∧ a.matmul b = .ok ty
    else HasTy d x operandTy ∧ HasTy d y operandTy ∧ op.typing operandTy operandTy = .ok ⟨operandTy, ty⟩
  | unary op x ty => ∃ t, HasTy d x t ∧ ty = op.resultTy t
  | compose parts ty => parts.length = ty.size ∧ ∃ s, ty.scalar? = some s ∧ ∀ p ∈ parts, HasTy d p (.scalar s)
  | extract v is ty => (∀ x ∈ is, HasTy d x .i32) ∧ ∃ t, HasTy d v t ∧ t.select is.length = some ty
  | atomic (.local slot is) _ v ty => ty.isScalar ∧ HasTy d v ty ∧ SlotPart d slot is ty
  | atomic (.global field ptr) _ v ty => ty.isScalar ∧ HasTy d v ty ∧ r.IsPart d field ptr ty
  | call _ args argTys _ => List.Forall₂ (HasTy d) args argTys
  | texture id op coords value ty =>
    ∃ t, r.texture t ∧ t.id = id ∧ t.storage = (op == .store)
      ∧ (∃ coordTy, op.coordTy? t.rank = some coordTy ∧ HasTy d coords coordTy)
      ∧ value.isSome = (op == .store) ∧ (∀ v ∈ value, HasTy d v texelTy) ∧ ty = texelTy
  | ret v ty => HasTy d v ty

def types : Op → List Ty
  | alloca ty _ | localLoad _ _ ty | globalLoad _ ty | unary _ _ ty | compose _ ty | extract _ _ ty | atomic _ _ _ ty
  | texture _ _ _ _ ty | ret _ ty | random ty | argLoad _ ty => [ty]
  | binary _ _ _ operandTy ty => [operandTy, ty]
  | call _ _ argTys ty => ty :: argTys
  | localStore .. | globalPtr .. | globalStore .. | loopControl _ => []

theorem Typed.mono {r : Resources} {d d' : Defs} (h : d ⊆ d') {o : Op} (ho : o.Typed r d) :
    o.Typed r d' := by
  cases o with
  | alloca | random | argLoad | loopControl => trivial
  | localLoad slot is ty => exact SlotPart.mono h ho
  | localStore slot is v =>
    obtain ⟨ty, hs, hv⟩ := ho
    exact ⟨ty, hs.mono h, hv.mono h⟩
  | globalPtr field is offset =>
    obtain ⟨hi, ho, hf⟩ := ho
    exact ⟨fun x hx => (hi x hx).mono h, ho.mono h, hf⟩
  | globalLoad ptr ty =>
    obtain ⟨field, hp⟩ := ho
    exact ⟨field, hp.mono h⟩
  | globalStore ptr v =>
    obtain ⟨field, ty, hp, hv⟩ := ho
    exact ⟨field, ty, hp.mono h, hv.mono h⟩
  | binary op x y operandTy ty =>
    simp only [Typed] at ho ⊢
    split at ho
    · obtain ⟨a, b, ha, hb, hm⟩ := ho
      rw [if_pos ‹_›]
      exact ⟨a, b, ha.mono h, hb.mono h, hm⟩
    · rw [if_neg ‹_›]
      exact ⟨ho.1.mono h, ho.2.1.mono h, ho.2.2⟩
  | unary op x ty =>
    obtain ⟨t, hx, hty⟩ := ho
    exact ⟨t, hx.mono h, hty⟩
  | compose parts ty =>
    obtain ⟨hl, s, hs, hp⟩ := ho
    exact ⟨hl, s, hs, fun p hm => (hp p hm).mono h⟩
  | extract v is ty =>
    obtain ⟨hi, t, hv, hs⟩ := ho
    exact ⟨fun x hx => (hi x hx).mono h, t, hv.mono h, hs⟩
  | atomic target kind v ty =>
    cases target with
    | «local» slot is | global field ptr => exact ⟨ho.1, ho.2.1.mono h, ho.2.2.mono h⟩
  | call i args argTys ty => exact List.Forall₂.imp (fun _ _ => HasTy.mono h) ho
  | texture id op coords value ty =>
    obtain ⟨t, ht, hid, hst, ⟨coordTy, hrank, hc⟩, hsome, hv, hty⟩ := ho
    exact ⟨t, ht, hid, hst, ⟨coordTy, hrank, hc.mono h⟩, hsome, fun v hm => (hv v hm).mono h, hty⟩
  | ret v ty => exact HasTy.mono h ho

end Op

end ArrayKernel.IR
