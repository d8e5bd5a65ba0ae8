import ArrayKernel.Proofs.Field.Addresses

/-!
# What lines of a shader do

Lines that read and write slots, as terms with a text and a meaning. A matrix on the device is
indexed by its columns and made of them, which is why `Leaf.argument` counts the other way round
than `Leaf.offset`.
-/

namespace ArrayKernel.Leaf

/-- The position of a scalar among the arguments of a constructor. Those of a matrix go column by
column. -/
def argument : {ty : Ty} → Leaf ty → Nat
  | _, @entry r _ i j => j * r.toNat + i
  | _, l => l.offset

theorem exists_argument {ty : Ty} : ∀ k < ty.size, ∃ l : Leaf ty, l.argument = k := by
  intro k hk
  cases ty with
  | matrix r c =>
    have hr : 0 < r.toNat := by cases r <;> decide
    refine ⟨entry ⟨k % r.toNat, Nat.mod_lt k hr⟩ ⟨k / r.toNat, Nat.div_lt_of_lt_mul hk⟩, ?_⟩
    exact Nat.div_add_mod' k r.toNat
  | scalar s =>
    obtain ⟨l, hl⟩ := exists_offset _ k hk
    exact ⟨l, by cases l; exact hl⟩
  | vector s n =>
    obtain ⟨l, hl⟩ := exists_offset _ k hk
    exact ⟨l, by cases l; exact hl⟩
  | struct ms =>
    obtain ⟨l, hl⟩ := exists_offset _ k hk
    exact ⟨l, by cases l <;> exact hl⟩

end ArrayKernel.Leaf

namespace ArrayKernel.Shader

open IR Option

/-! ## 1. Contents of variables -/

/-- What a variable holds: a word for each scalar of its type. -/
structure Content where
  ty : Ty
  word : Leaf ty → UInt32

variable {w : UInt32} {s : Scalar} {n : Dim} {ty : Ty} {word : Leaf ty → UInt32}

namespace Content

def ofScalar (s : Scalar) (w : UInt32) : Content := ⟨.scalar s, fun _ => w⟩

def scalar? (s : Scalar) : Content → Option UInt32
  | ⟨.scalar s', word⟩ => if s' = s then some (word .itself) else none
  | _ => none

def bitcast? (s : Scalar) : Content → Option Content
  | ⟨.scalar _, word⟩ => some (ofScalar s (word .itself))
  | _ => none

def item? : Content → Nat → Option Content
  | ⟨.vector s n, word⟩, i => if h : i < n.toNat then some (ofScalar s (word (.component ⟨i, h⟩))) else none
  | ⟨.matrix r c, word⟩, j =>
    if h : j < c.toNat then some ⟨.vector .f32 r, fun | .component i => word (.entry i ⟨j, h⟩)⟩ else none
  | _, _ => none

def make? (ty : Ty) (args : List Content) : Option Content :=
  if args.length = ty.size ∧ ∀ a ∈ args, (a.scalar? (wordScalar ty)).isSome then
    some ⟨ty, fun l => ((args[l.argument]?).bind (scalar? (wordScalar ty))).getD 0⟩
  else none

/-- The scalar at which a path of indices ends. In a matrix, the first index is that of the column.
-/
def leaf? : (ty : Ty) → List Nat → Option (Leaf ty)
  | .vector _ n, [i] => if h : i < n.toNat then some (.component ⟨i, h⟩) else none
  | .matrix r c, [j, i] => if h : i < r.toNat ∧ j < c.toNat then some (.entry ⟨i, h.1⟩ ⟨j, h.2⟩) else none
  | _, _ => none

def setScalar (x : Content) (l : Leaf x.ty) (w : UInt32) : Content :=
  ⟨x.ty, fun k => if k.offset = l.offset then w else x.word k⟩

/-- An assignment to the whole, by a value of the same type, or to one scalar. -/
def assign? (x : Content) (path : List Nat) (v : Content) : Option Content :=
  match path with
  | [] => if v.ty = x.ty then some v else none
  | _ => (leaf? x.ty path).bind fun l => (v.scalar? l.scalar).map (x.setScalar l)

@[simp] theorem scalar?_ofScalar : (ofScalar s w).scalar? s = some w := if_pos rfl

theorem item?_vector (word : Leaf (.vector s n) → UInt32) (i : Fin n.toNat) :
    item? ⟨.vector s n, word⟩ i = some (ofScalar s (word (.component i))) := dif_pos i.isLt

theorem item?_matrix {r c : Dim} {word : Leaf (.matrix r c) → UInt32} {j : Fin c.toNat} :
    item? ⟨.matrix r c, word⟩ j = some ⟨.vector .f32 r, fun | .component i => word (.entry i j)⟩ := dif_pos j.isLt

theorem item?_item? {r c : Dim} {word : Leaf (.matrix r c) → UInt32} {i : Fin r.toNat}
    {j : Fin c.toNat} :
    (item? ⟨.matrix r c, word⟩ j).bind (item? · i) = some (ofScalar .f32 (word (.entry i j))) := by
  rw [item?_matrix, bind_some, item?_vector]
  rfl

theorem assign?_component {word : Leaf (.vector s n) → UInt32} {i : Fin n.toNat} :
    assign? ⟨.vector s n, word⟩ [i] (ofScalar s w) = some (setScalar ⟨.vector s n, word⟩ (.component i) w) := by
  have hleaf : leaf? (.vector s n) [i] = some (.component i) := dif_pos i.isLt
  simp only [assign?, hleaf, bind_some]
  rw [show (Leaf.component i : Leaf (.vector s n)).scalar = s from rfl, scalar?_ofScalar]
  rfl

theorem assign?_entry {r c : Dim} {word : Leaf (.matrix r c) → UInt32} (i : Fin r.toNat)
    (j : Fin c.toNat) :
    assign? ⟨.matrix r c, word⟩ [j, i] (ofScalar .f32 w) = some (setScalar ⟨.matrix r c, word⟩ (.entry i j) w) := by
  have hleaf : leaf? (.matrix r c) [j, i] = some (.entry i j) := dif_pos ⟨i.isLt, j.isLt⟩
  simp only [assign?, hleaf]
  rfl

theorem make?_eq {args : List Content} (hlength : args.length = ty.size)
    (hargs : ∀ l : Leaf ty, args[l.argument]? = some (ofScalar (wordScalar ty) (word l))) :
    make? ty args = some ⟨ty, word⟩ := by
  have hscalar : ∀ a ∈ args, (a.scalar? (wordScalar ty)).isSome := by
    intro a ha
    obtain ⟨k, hk, rfl⟩ := List.mem_iff_getElem.1 ha
    obtain ⟨l, hl⟩ := Leaf.exists_argument k (hlength ▸ hk)
    have hget := hargs l
    rw [hl, List.getElem?_eq_getElem hk, Option.some.injEq] at hget
    rw [hget, scalar?_ofScalar]
    rfl
  rw [make?, if_pos ⟨hlength, hscalar⟩]
  refine congrArg (fun w => some (Content.mk ty w)) (funext fun l => ?_)
  rw [hargs l, bind_some, scalar?_ofScalar]
  rfl

end Content

/-! ## 2. Terms -/

/-- What a line works on. -/
structure Memory where
  vars : String → Option Content
  /-- The words of the buffer of shared slots. Nothing can be read from or written to a word that
  is not there. -/
  words : Int32 → Option UInt32

inductive Subscript where
  | number (n : Nat)
  | literal (l : Literal)
  | name (x : String)

/-- A constant stands bare as an index if it is no negative number. -/
def Subscript.text : Subscript → String
  | .number n => toString n
  | .literal (.i32 v) => if 0 ≤ v then toString v.toInt else (Literal.i32 v).shaderText
  | .literal (.u32 v) => toString v.toNat
  | .literal l => l.shaderText
  | .name x => x

/-- A name, a constant, a component or column, a word of the buffer, or the word of a scalar as one
of another type. -/
inductive Term where
  | name (x : String)
  | literal (l : Literal)
  | item (e : Term) (i : Subscript)
  | load (a : LinearIndex)
  | bitcast (s : Scalar) (e : Term)

def Term.text : Term → String
  | .name x => x
  | .literal l => l.shaderText
  | .item e i => e.text ++ "[" ++ i.text ++ "]"
  | .load a => "atomicLoad(&global_tmps[" ++ a.address.word 0 ++ "])"
  | .bitcast s e => "bitcast<" ++ s.name ++ ">(" ++ e.text ++ ")"

theorem Term.text_item (e : Term) (i : Subscript) :
    (Term.item e i).text = e.text ++ "[" ++ i.text ++ "]" := rfl

inductive Formula where
  | term (e : Term)
  | make (ty : Ty) (args : List Term)

def Formula.text : Formula → String
  | .term e => e.text
  | .make ty args => applied ty.shaderText (args.map Term.text)

def Term.addresses : Term → List LinearIndex
  | .item e _ => e.addresses
  | .load a => [a]
  | .bitcast _ e => e.addresses
  | _ => []

def Formula.addresses : Formula → List LinearIndex
  | .term e => e.addresses
  | .make _ args => args.flatMap Term.addresses

namespace Memory

variable (m : Memory)

def int? (x : String) : Option Int32 := ((m.vars x).bind (Content.scalar? .i32)).map UInt32.toInt32

def natural? (v : Int32) : Option Nat := if 0 ≤ v then some v.toInt.toNat else none

def index : Subscript → Option Nat
  | .number n => some n
  | .literal (.i32 v) => natural? v
  | .literal (.u32 v) => some v.toNat
  | .literal (.f32 _) => none
  | .name x => (m.int? x).bind natural?

/-- The word that a sum leads to, in the integers of the device. -/
def address (x : LinearIndex) : Option Int32 :=
  (x.terms.mapM fun y => (m.int? y.1).map (· * Int32.ofInt y.2.toInt)).map fun vs =>
    vs.foldr (· + ·) 0 + Int32.ofInt x.offset.toInt

def term : Term → Option Content
  | .name x => m.vars x
  | .literal l => some (.ofScalar l.scalar l.bits)
  | .item e i => (term e).bind fun x => (m.index i).bind x.item?
  | .load a => (m.address a).bind fun k => (m.words k).map (.ofScalar .i32)
  | .bitcast s e => (term e).bind (Content.bitcast? s)

def formula : Formula → Option Content
  | .term e => m.term e
  | .make ty args => (args.mapM m.term).bind (Content.make? ty)

def setVar (x : String) (v : Content) : Memory :=
  { m with vars := fun y => if y = x then some v else m.vars y }

def setWord (a : Int32) (w : UInt32) : Memory :=
  { m with words := fun b => if b = a then some w else m.words b }

@[simp] theorem words_setWord {a b : Int32} :
    (m.setWord a w).words b = if b = a then some w else m.words b := rfl

variable {m}

theorem mapM_eq_map {α β : Type} {f : α → Option β} {g : α → β} {xs : List α}
    (h : ∀ x ∈ xs, f x = some (g x)) : xs.mapM f = some (xs.map g) := by
  induction xs with
  | nil => rfl
  | cons x xs ih =>
    obtain ⟨hx, hxs⟩ := List.forall_mem_cons.1 h
    rw [List.mapM_cons, hx, ih hxs]
    rfl

theorem formula_make {args : List Term} (hlength : args.length = ty.size)
    (hargs : ∀ l : Leaf ty, (args[l.argument]?).bind m.term = some (.ofScalar (wordScalar ty) (word l))) :
    m.formula (.make ty args) = some ⟨ty, word⟩ := by
  -- each argument is that of some scalar, so all of them have values
  have hall : ∀ a ∈ args, m.term a = some ((m.term a).getD (.ofScalar .i32 0)) := by
    intro a ha
    obtain ⟨k, hk, rfl⟩ := List.mem_iff_getElem.1 ha
    obtain ⟨l, hl⟩ := Leaf.exists_argument k (hlength ▸ hk)
    have hget := hargs l
    rw [hl, List.getElem?_eq_getElem hk, bind_some] at hget
    rw [hget]
    rfl
  rw [formula, mapM_eq_map hall, bind_some]
  apply Content.make?_eq (by rw [List.length_map, hlength])
  intro l
  obtain ⟨a, ha, hterm⟩ := bind_eq_some_iff.1 (hargs l)
  rw [List.getElem?_map, ha, map_some, hterm]
  rfl

end Memory

/-! ## 3. Lines -/

inductive Action where
  | assign (x : String) (path : List Subscript) (e : Formula)
  | store (a : LinearIndex) (e : Term)
  | define (x : String) (ty : Ty) (e : Formula)

namespace Action

def text : Action → String
  | assign x path e => (path.foldl Term.item (.name x)).text ++ " = " ++ e.text ++ ";"
  | store a e => "atomicStore(&global_tmps[" ++ a.address.word 0 ++ "], " ++ e.text ++ ");"
  | define x ty e => "let " ++ x ++ ": " ++ ty.shaderText ++ " = " ++ e.text ++ ";"

def addresses : Action → List LinearIndex
  | assign _ _ e => e.addresses
  | store a e => a :: e.addresses
  | define _ _ e => e.addresses

def exec : Action → Memory → Option Memory
  | assign x path e, m => do
    let v ← m.formula e
    let old ← m.vars x
    let new ← old.assign? (← path.mapM m.index) v
    return m.setVar x new
  | store a e, m => do
    let k ← m.address a
    let _ ← m.words k
    let w ← (← m.term e).scalar? .i32
    return m.setWord k w
  | define x ty e, m => do
    let v ← m.formula e
    if v.ty = ty then return m.setVar x v else none

end Action

def run (as : List Action) (m : Memory) : Option Memory := as.foldlM (fun m a => a.exec m) m

theorem run_append (as bs : List Action) (m : Memory) :
    run (as ++ bs) m = (run as m).bind (run bs) := List.foldlM_append ..

@[simp] theorem run_singleton (a : Action) (m : Memory) : run [a] m = a.exec m := by
  simp [run]

theorem run_range {action : Nat → Action} {n : Nat} {I : Nat → Memory → Prop}
    (hstep : ∀ k < n, ∀ m, I k m → ∃ m', (action k).exec m = some m' ∧ I (k + 1) m') {m : Memory}
    (h : I 0 m) : ∃ m', run ((List.range n).map action) m = some m' ∧ I n m' := by
  induction n with
  | zero => exact ⟨m, rfl, h⟩
  | succ n ih =>
    obtain ⟨m1, hrun, hm1⟩ := ih fun k hk => hstep k (Nat.lt_succ_of_lt hk)
    obtain ⟨m2, hexec, hm2⟩ := hstep n (Nat.lt_succ_self n) m1 hm1
    refine ⟨m2, ?_, hm2⟩
    rw [List.range_succ, List.map_append, run_append, hrun, bind_some]
    simpa using hexec

end ArrayKernel.Shader
