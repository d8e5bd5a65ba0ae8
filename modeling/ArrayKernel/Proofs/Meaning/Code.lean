import ArrayKernel.IR.Stmt
import ArrayKernel.Proofs.Meaning.Control
import ArrayKernel.Proofs.Meaning.Operators

/-!
# What the representation means

Statements that compute with integers, run one after the other. Reading what is not there has no
meaning.
-/

namespace ArrayKernel.Meaning

open IR

/-! ## 1. Stores -/

structure Store where
  values : StmtId → Option Int32
  slots : StmtId → Option Int32

variable {id i : StmtId} {σ : Store} {v : Int32}

namespace Store

def value (σ : Store) : Operand → Option Int32
  | .stmt id => σ.values id
  | .const (.i32 v) => some v
  | .const _ => none

def setValue (σ : Store) (id : StmtId) (v : Int32) : Store :=
  { σ with values := fun i => if i = id then some v else σ.values i }

def setSlot (σ : Store) (id : StmtId) (v : Int32) : Store :=
  { σ with slots := fun i => if i = id then some v else σ.slots i }

@[simp] theorem slots_setValue : (σ.setValue id v).slots = σ.slots := rfl

@[simp] theorem values_setSlot : (σ.setSlot id v).values = σ.values := rfl

@[simp] theorem values_setValue :
    (σ.setValue id v).values i = if i = id then some v else σ.values i := rfl

@[simp] theorem slots_setSlot :
    (σ.setSlot id v).slots i = if i = id then some v else σ.slots i := rfl

@[simp] theorem value_stmt : σ.value (.stmt id) = σ.values id := rfl

@[simp] theorem value_setSlot (σ : Store) (id : StmtId) (v : Int32) (o : Operand) :
    (σ.setSlot id v).value o = σ.value o := by
  cases o <;> rfl

@[simp] theorem value_const (σ : Store) (v : Int32) : σ.value (.const (.i32 v)) = some v := rfl

end Store

/-- Two stores have the same under all ids below a bound. -/
def Same (n : StmtId) (σ σ' : Store) : Prop :=
  ∀ i < n, σ'.values i = σ.values i ∧ σ'.slots i = σ.slots i

namespace Same

variable {n m : StmtId} {σ σ₁ σ2 : Store}

theorem refl (n : StmtId) (σ : Store) : Same n σ σ := fun _ _ => ⟨rfl, rfl⟩

theorem mono (h : Same m σ σ₁) (hn : n ≤ m) : Same n σ σ₁ :=
  fun i hi => h i (Nat.lt_of_lt_of_le hi hn)

theorem trans (h : Same n σ σ₁) (h' : Same m σ₁ σ2) (hn : n ≤ m) : Same n σ σ2 := fun i hi =>
  ⟨((h'.mono hn) i hi).1.trans (h i hi).1, ((h'.mono hn) i hi).2.trans (h i hi).2⟩

theorem setValue (σ : Store) (hid : n ≤ id) (v : Int32) : Same n σ (σ.setValue id v) := fun i hi =>
  ⟨by simp [Nat.ne_of_lt (Nat.lt_of_lt_of_le hi hid)], rfl⟩

theorem setSlot (σ : Store) (hid : n ≤ id) (v : Int32) : Same n σ (σ.setSlot id v) := fun i hi =>
  ⟨rfl, by simp [Nat.ne_of_lt (Nat.lt_of_lt_of_le hi hid)]⟩

end Same

/-! ## 2. Statements -/

def outcomeOf : LoopControl → Outcome
  | .break_ => .broke
  | .continue_ => .continued

/-- The run of a simple statement with the given id. A slot starts as zero, and a read-modify-write
gives the value before. -/
def step (zero : ByZero) (id : StmtId) : Op → Store → Result Store
  | .alloca (.scalar .i32) _, σ => some (σ.setSlot id 0, .normal)
  | .localLoad slot [] (.scalar .i32), σ => (σ.slots slot).map fun v => (σ.setValue id v, .normal)
  | .localStore slot [] o, σ => (σ.value o).map fun v => (σ.setSlot slot v, .normal)
  | .binary op a b (.scalar .i32) (.scalar .i32), σ =>
    (σ.value a).bind fun x => (σ.value b).bind fun y =>
      (binary zero op x y).map fun v => (σ.setValue id v, .normal)
  | .unary op a (.scalar .i32), σ =>
    (σ.value a).bind fun x => (unaryOp op x).map fun v => (σ.setValue id v, .normal)
  | .atomic (.local slot []) kind o (.scalar .i32), σ =>
    (σ.slots slot).bind fun old => (σ.value o).map fun v =>
      ((σ.setSlot slot (update kind old v)).setValue id old, .normal)
  | .loopControl c, σ => some (σ, outcomeOf c)
  | _, _ => none

mutual

/-- The run of a statement. Fuel bounds the iterations of the loops that have a condition. -/
def run (zero : ByZero) (fuel : Nat) : Stmt → Store → Result Store
  | .op id o, σ => step zero id o σ
  | .rangeFor id first last body _, σ =>
    (σ.value first).bind fun i => (σ.value last).bind fun j =>
      ended (rangeLoop (fun i σ => runAll zero fuel body (σ.setValue id i)) (rangeCount i j) i σ)
  | .while_ _ condBody c body, σ =>
    let test (σ : Store) : Option (Store × Bool) :=
      (runAll zero fuel condBody σ).bind fun (σ₁, out) =>
        if out = .normal then (σ₁.value c).map fun v => (σ₁, decide (v ≠ 0)) else none
    ended (whileLoop test (fun σ => runAll zero fuel body σ) fuel σ)
  | .ifElse _ c yes no, σ =>
    (σ.value c).bind fun v => if v ≠ 0 then runAll zero fuel yes σ else runAll zero fuel no σ

def runAll (zero : ByZero) (fuel : Nat) : List Stmt → Store → Result Store
  | [], σ => some (σ, .normal)
  | s :: ss, σ => andThen (run zero fuel s σ) fun σ => runAll zero fuel ss σ

end

def Executes (zero : ByZero) (ss : List Stmt) (σ σ' : Store) (out : Outcome) : Prop :=
  ∃ fuel, runAll zero fuel ss σ = some (σ', out)

/-! ## 3. One after the other -/

variable {zero : ByZero} {fuel : Nat} {σ σ₁ σ2 : Store} {ss : List Stmt}

theorem runAll_append (ss ts : List Stmt) (σ : Store) :
    runAll zero fuel (ss ++ ts) σ = andThen (runAll zero fuel ss σ) (runAll zero fuel ts) := by
  induction ss generalizing σ with
  | nil => rfl
  | cons s ss ih =>
    simp only [List.cons_append, runAll, andThen_assoc]
    congr 1
    funext σ
    exact ih σ

theorem runAll_singleton {s : Stmt} : runAll zero fuel [s] σ = run zero fuel s σ := by
  exact andThen_normal

theorem runAll_append_of_normal (h : runAll zero fuel ss σ = some (σ₁, .normal)) {ts : List Stmt} :
    runAll zero fuel (ss ++ ts) σ = runAll zero fuel ts σ₁ := by
  rw [runAll_append, h]
  rfl

/-! ## 4. More fuel -/

mutual

theorem run_extends {fuel fuel' : Nat} (h : fuel ≤ fuel') :
    (s : Stmt) → (σ : Store) → Extends (run zero fuel s σ) (run zero fuel' s σ)
  | .op id o, σ => .refl _
  | .rangeFor id first last body _, σ => by
    unfold run
    refine (Extends.refl _).bind fun i => (Extends.refl _).bind fun j => Extends.ended ?_
    exact Extends.rangeLoop (fun i σ => runAll_extends h body _) _ _ _
  | .while_ _ condBody c body, σ => by
    refine .ended (.whileLoop (fun σ => ?_) (fun σ => runAll_extends h body σ) h σ)
    exact (runAll_extends h condBody σ).bind fun _ => .refl _
  | .ifElse _ c yes no, σ => by
    exact (Extends.refl _).bind fun v => .ite (runAll_extends h yes σ) (runAll_extends h no σ)

theorem runAll_extends {fuel fuel' : Nat} (h : fuel ≤ fuel') :
    (ss : List Stmt) → (σ : Store) → Extends (runAll zero fuel ss σ) (runAll zero fuel' ss σ)
  | [], σ => .refl _
  | s :: ss, σ => by
    exact (run_extends h s σ).andThen fun σ => runAll_extends h ss σ

end

theorem Executes.unique {out out' : Outcome} (h : Executes zero ss σ σ₁ out)
    (h' : Executes zero ss σ σ2 out') : σ₁ = σ2 ∧ out = out' := by
  obtain ⟨fuel, h⟩ := h
  obtain ⟨fuel', h'⟩ := h'
  have h1 := runAll_extends (Nat.le_max_left fuel fuel') ss σ _ h
  have h2 := runAll_extends (Nat.le_max_right fuel fuel') ss σ _ h'
  have heq := Option.some.inj (h1.symm.trans h2)
  exact ⟨congrArg Prod.fst heq, congrArg Prod.snd heq⟩

end ArrayKernel.Meaning
