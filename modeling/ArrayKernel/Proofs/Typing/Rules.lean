import ArrayKernel.Proofs.IR.Typing

/-!
# Facts about the typing rules

Operands that have been converted to the operand type of an operator are accepted again, with the
same result. No rule lets a structure through.
-/

namespace ArrayKernel

open Surface List

variable {n : Nat} {a b t u : Ty} {s s' : Scalar} {op : BinOp} {v l : Literal}

/-! ## 1. Types -/

namespace Scalar

@[simp] theorem promote_self : s.promote s = s := by simp [promote]

end Scalar

namespace Dim

theorem ofNat?_eq_some {d : Dim} (h : Dim.ofNat? n = some d) : d.toNat = n := by
  unfold Dim.ofNat? at h
  split at h <;> cases h <;> rfl

end Dim

namespace Ty

mutual

theorem length_scalars : (ty : Ty) → ty.scalars.length = ty.size
  | .scalar _ => rfl
  | .vector _ _ | .matrix _ _ => length_replicate
  | .struct ms => length_scalarsOfMembers ms

theorem length_scalarsOfMembers : (ms : Members) → (scalarsOfMembers ms).length = sizeOfMembers ms
  | .nil => rfl
  | .cons _ t rest => by
    rw [scalarsOfMembers, sizeOfMembers, length_append, length_scalars t, length_scalarsOfMembers rest]

end

@[simp] theorem isStruct_withScalar : (t.withScalar s).isStruct = t.isStruct := by
  cases t <;> rfl

@[simp] theorem withScalar_withScalar : (t.withScalar s).withScalar s' = t.withScalar s' := by
  cases t <;> rfl

theorem isScalar_iff : t.isScalar ↔ ∃ s, t = .scalar s := by
  cases t <;> simp [isScalar]

theorem isStruct_iff : t.isStruct ↔ ∃ ms, t = .struct ms := by
  cases t <;> simp [isStruct]

theorem ofVector_eq (h : Ty.ofVector s n = .ok t) : ∃ d, t = .vector s d ∧ d.toNat = n := by
  unfold Ty.ofVector at h
  split at h
  · cases h
    exact ⟨_, rfl, Dim.ofNat?_eq_some ‹_›⟩
  · cases h

theorem ofMatrix_eq {m : Nat} (h : Ty.ofMatrix m n = .ok t) :
    ∃ r c, t = .matrix r c ∧ r.toNat = m ∧ c.toNat = n := by
  unfold Ty.ofMatrix at h
  split at h
  · cases h
    exact ⟨_, _, rfl, Dim.ofNat?_eq_some ‹_›, Dim.ofNat?_eq_some ‹_›⟩
  all_goals cases h

theorem member_eq {name : String} {start : Nat} (h : t.member name = .ok (start, u)) :
    ∃ ms, t = .struct ms ∧ ms.find? name = some (start, u) := by
  unfold Ty.member at h
  split at h
  · split at h
    · cases h
      exact ⟨_, rfl, ‹_›⟩
    · cases h
  · cases h

/-! ## 2. Operators -/

theorem broadcast_not_struct (h : a.broadcast b = .ok t) : t.isStruct = false := by
  unfold broadcast at h
  split at h <;> (try split at h) <;> cases h <;> rfl

theorem broadcast_self (h : t.isStruct = false) : t.broadcast t = .ok t := by
  cases t with
  | struct ms => cases h
  | _ => simp [broadcast]

theorem matmul_not_struct (h : a.matmul b = .ok t) : t.isStruct = false := by
  unfold matmul at h
  split at h <;> (try split at h) <;> cases h <;> rfl

theorem matmul_left_not_struct (h : a.matmul b = .ok t) : a.isStruct = false := by
  unfold matmul at h
  split at h <;> (try split at h) <;> cases h <;> rfl

theorem matmul_withScalar (h : a.matmul b = .ok t) :
    (a.withScalar s).matmul (b.withScalar s') = .ok t := by
  unfold matmul at h
  split at h <;> (try split at h) <;> cases h <;> simp_all [withScalar, matmul]

end Ty

namespace Surface.BinOp

/-- What the rule says about all operators but the product of matrices, in terms of the common
shape. -/
inductive Accepts (op : BinOp) (shape : Ty) : BinaryTyping → Prop where
  | quotient (h : op = .div ∨ op = .pow) : Accepts op shape ⟨shape.withScalar .f32, shape.withScalar .f32⟩
  | truth (hop : ¬(op = .div ∨ op = .pow)) (h : op.isComparison ∨ op.isLogical)
    (hm : shape.isMatrix = false) : Accepts op shape ⟨shape, shape.withScalar .i32⟩
  | other (hop : ¬(op = .div ∨ op = .pow)) (h : ¬(op.isComparison ∨ op.isLogical))
    (hb : op.isBitwise → shape.scalar? ≠ some .f32 ∧ shape.isMatrix = false)
    (hf : op = .floorDiv → shape.isMatrix = false) : Accepts op shape ⟨shape, shape⟩

theorem typing_eq_ok_iff {t : BinaryTyping} (hop : op ≠ .matMul) :
    op.typing a b = .ok t ↔ ∃ shape, a.broadcast b = .ok shape ∧ Accepts op shape t := by
  unfold BinOp.typing
  rw [if_neg hop]
  cases a.broadcast b with
  | error err => simp [Except.bind]
  | ok shape =>
    simp only [Except.bind, Except.ok.injEq, exists_eq_left']
    constructor
    · intro h
      split at h
      · cases h
      split at h
      · cases h
        exact .quotient (by simp_all)
      split at h
      · cases h
        exact .truth (by simp_all) (by simp_all) (by simp_all)
      split at h
      · cases h
      · cases h
        cases hm : shape.isMatrix <;> exact .other (by simp_all) (by simp_all) (by simp_all) (by simp_all)
    · intro h
      cases h with
      | quotient h => rcases h with rfl | rfl <;> simp [isComparison, isLogical, isBitwise]
      | truth hd h hm => simp_all
      | other hd h hb hf => cases hm : shape.isMatrix <;> simp_all

theorem typing_self {t : BinaryTyping} (hop : op ≠ .matMul) (h : op.typing a b = .ok t) :
    op.typing t.operand t.operand = .ok t := by
  obtain ⟨shape, hs, ht⟩ := (typing_eq_ok_iff hop).1 h
  have hn := Ty.broadcast_not_struct hs
  rw [typing_eq_ok_iff hop]
  cases ht with
  | quotient hq =>
    refine ⟨_, Ty.broadcast_self (by simpa using hn), ?_⟩
    simpa using (.quotient hq : Accepts op (shape.withScalar .f32) _)
  | truth hd hc hm => exact ⟨shape, Ty.broadcast_self hn, .truth hd hc hm⟩
  | other hd hc hb hf => exact ⟨shape, Ty.broadcast_self hn, .other hd hc hb hf⟩

theorem typing_matMul {t : BinaryTyping} (h : BinOp.matMul.typing a b = .ok t) :
    a.matmul b = .ok t.result ∧ t.operand = a.withScalar .f32 := by
  unfold BinOp.typing at h
  cases hm : a.matmul b with
  | error err => rw [hm] at h; cases h
  | ok u =>
    rw [hm] at h
    cases h
    exact ⟨rfl, rfl⟩

theorem typing_not_struct {t : BinaryTyping} (h : op.typing a b = .ok t) :
    t.operand.isStruct = false ∧ t.result.isStruct = false := by
  by_cases hop : op = .matMul
  · subst hop
    obtain ⟨hm, ho⟩ := typing_matMul h
    rw [ho, Ty.isStruct_withScalar]
    exact ⟨Ty.matmul_left_not_struct hm, Ty.matmul_not_struct hm⟩
  · obtain ⟨shape, hs, ht⟩ := (typing_eq_ok_iff hop).1 h
    have hn := Ty.broadcast_not_struct hs
    cases ht <;> simp [hn]

end Surface.BinOp

/-! ## 3. Constants -/

namespace Literal

@[simp] theorem scalar_cast (l : Literal) (s : Scalar) : (l.cast s).scalar = s := by
  cases l <;> cases s <;> rfl

@[simp] theorem scalar_bitcast : (l.bitcast s).scalar = s := by
  cases s <;> rfl

end Literal

theorem Fold.binary_scalar {a b : Literal} (h : Fold.binary op a b s s' = .ok (some v)) :
    v.scalar = s' := by
  unfold Fold.binary at h
  split at h
  · cases h
    simp
  split at h
  · cases h
    simp
  · cases ha : Fold.arithmetic op (a.cast s) (b.cast s) with
    | error e => simp [ha, Except.map] at h
    | ok w =>
      simp only [ha, Except.map, Except.ok.injEq] at h
      obtain ⟨w, _, rfl⟩ := Option.map_eq_some_iff.1 h
      simp

theorem Fold.unary_ty {op : UnaryOp} (h : Fold.unary op l = some v) : v.ty = op.resultTy l.ty := by
  cases op <;> cases l <;> cases h <;> simp [UnaryOp.resultTy, Literal.ty] <;> rfl

theorem Fold.binary_int (hop : op = .add ∨ op = .mul) (a b : Literal) :
    ∃ v, Fold.binary op a b .i32 .i32 = .ok (some v) := by
  have hcast : ∀ l : Literal, ∃ v, l.cast .i32 = .i32 v := by
    intro l
    cases l <;> exact ⟨_, rfl⟩
  obtain ⟨x, hx⟩ := hcast a
  obtain ⟨y, hy⟩ := hcast b
  rcases hop with rfl | rfl <;>
    simp [Fold.binary, BinOp.isComparison, BinOp.isLogical, Fold.arithmetic, Fold.onI32, hx, hy, Except.map]

/-! ## 4. Unary operators and calls -/

/-- The operator of the representation that computes an operator of the language. -/
def Surface.UnOp.underlying? : UnOp → Option UnaryOp
  | .plus => none
  | .neg => some .neg
  | .not => some .not
  | .bitNot => some .bitNot

theorem Surface.UnOp.typing_eq {op : UnOp} (h : op.typing t = .ok u) :
    u = ((op.underlying?.map UnaryOp.resultTy).getD id) t ∧ t.isStruct = false := by
  have hs : t.isStruct = false := by
    cases t with
    | struct ms => cases h
    | _ => rfl
  refine ⟨?_, hs⟩
  unfold UnOp.typing at h
  split at h <;> (try split at h) <;> cases h <;> rfl

theorem except_bind_ok {ε α β : Type} {x : Except ε α} {f : α → Except ε β} {r : β}
    (h : (x >>= f) = .ok r) : ∃ a, x = .ok a ∧ f a = .ok r := by
  cases x with
  | ok a => exact ⟨a, rfl, h⟩
  | error err => cases h

theorem Ty.foldlM_broadcast_not_struct {ts : List Ty} (ht : t.isStruct = false)
    (h : ts.foldlM Ty.broadcast t = .ok u) : u.isStruct = false := by
  induction ts generalizing t with
  | nil =>
    cases h
    exact ht
  | cons v ts ih =>
    rw [foldlM_cons] at h
    cases hv : t.broadcast v with
    | error err => rw [hv] at h; cases h
    | ok w =>
      rw [hv] at h
      exact ih (broadcast_not_struct hv) h

/-- The number of operands of a call, where it does not depend on the arguments. -/
def IntrinsicKind.operands? : IntrinsicKind → Option Nat
  | dot | cross => some 2
  | normSqr | length | normalize | transpose | determinant | cast _ | bitcast _ => some 1
  | _ => none

namespace Intrinsic

variable {i : Intrinsic} {args : List Ty} {sig : Signature}

theorem arity_of_mem_table (hi : i ∈ table) (hn : i.kind.operands? = some n) : i.arity = n := by
  have h : ∀ j ∈ table, ∀ m ∈ j.kind.operands?, j.arity = m := by decide
  exact h i hi n hn

theorem signature_shape (h : i.signature args = .ok sig) :
    (sig.ret.isStruct = false ∧ ∀ t ∈ sig.args, t.isStruct = false)
      ∧ sig.args.length = i.kind.operands?.getD args.length := by
  unfold signature at h
  split at h
  · cases h
  rename_i hfind
  have hfirst : (args.head?.getD .f32).isStruct = false := by
    cases args with
    | nil => rfl
    | cons t ts => simpa using (find?_eq_none.1 hfind) t (mem_cons_self ..)
  cases hk : i.kind with
  | float | same =>
    simp only [hk] at h
    obtain ⟨shape, hshape, h⟩ := except_bind_ok h
    have hs := Ty.foldlM_broadcast_not_struct hfirst hshape
    split at h
    · cases h
    · cases h
      simp [hs, IntrinsicKind.operands?]
  | sign =>
    simp only [hk] at h
    obtain ⟨shape, hshape, h⟩ := except_bind_ok h
    have hs := Ty.foldlM_broadcast_not_struct hfirst hshape
    split at h
    · cases h
    · simp only [reduceCtorEq, if_false] at h
      split at h <;> cases h
      simp [hs, IntrinsicKind.operands?]
  | dot | cross =>
    simp only [hk] at h
    obtain ⟨shape, -, h⟩ := except_bind_ok h
    split at h <;> cases h
    simp [Ty.isStruct, IntrinsicKind.operands?]
  | normSqr | length | normalize | transpose =>
    simp only [hk] at h
    split at h <;> cases h
    simp_all [Ty.isStruct, IntrinsicKind.operands?]
  | determinant =>
    simp only [hk] at h
    split at h
    · split at h <;> cases h
      simp_all [Ty.isStruct, IntrinsicKind.operands?]
    · cases h
  | cast s | bitcast s =>
    simp only [hk] at h
    split at h <;> cases h
    simp [hfirst, IntrinsicKind.operands?]
  | _ => simp only [hk] at h; cases h

theorem signature_args_length (hi : i ∈ table) (hargs : args.length = i.arity)
    (h : i.signature args = .ok sig) : sig.args.length = args.length := by
  rw [(signature_shape h).2]
  cases hn : i.kind.operands? with
  | none => rfl
  | some n => rw [hargs, arity_of_mem_table hi hn]; rfl

theorem signature_convert (hk : i.kind = .cast s ∨ i.kind = .bitcast s)
    (h : i.signature [t] = .ok sig) : sig.ret = t.withScalar s := by
  unfold signature at h
  split at h
  · cases h
  · rcases hk with hk | hk <;> simp only [hk] at h <;> split at h <;> cases h <;> rfl

end Intrinsic

end ArrayKernel
