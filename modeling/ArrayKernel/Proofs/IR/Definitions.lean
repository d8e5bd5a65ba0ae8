import ArrayKernel.IR.Sharing

/-!
# What statements define and what they refer to

A list of definitions is the environment in which a statement is judged. The judgements about whole
kernels are checks, and `Check.Implies.block` carries one check over to another.
-/

namespace ArrayKernel.IR

open List Stmt

variable {o cond : Operand} {i : StmtId} {ty : Ty} {body : List Stmt}

/-! ## 1. Definitions -/

inductive Def where
  | op (o : Op)
  | index

abbrev Defs := List (StmtId × Def)

theorem Defs.append_mono {d d' e e' : Defs} (h : d ⊆ d') (he : e ⊆ e') : d ++ e ⊆ d' ++ e' :=
  append_subset.2 ⟨subset_append_of_subset_left _ h, subset_append_of_subset_right _ he⟩

theorem Defs.append_mono_left {d d' : Defs} (h : d ⊆ d') {e : Defs} : d ++ e ⊆ d' ++ e :=
  append_mono h (.refl e)

/-- The type of the value that an operand reads. An address is not a value. -/
def Def.ty? : Def → Option Ty
  | .op (.globalPtr ..) => none
  | .op o => o.resultTy?
  | .index => some .i32

namespace Stmt

def defs : Stmt → Defs
  | op i o => [(i, .op o)]
  | _ => []

def defsOf (ss : List Stmt) : Defs := ss.flatMap defs

def idsOf (ss : List Stmt) : List StmtId := (flattenAll ss).map id

@[simp] theorem defsOf_nil : defsOf [] = [] := rfl

@[simp] theorem defsOf_cons (s : Stmt) (ss : List Stmt) : defsOf (s :: ss) = s.defs ++ defsOf ss :=
  rfl

@[simp] theorem defsOf_append {ss ts : List Stmt} : defsOf (ss ++ ts) = defsOf ss ++ defsOf ts :=
  flatMap_append

@[simp] theorem flattenAll_append {ss ts : List Stmt} :
    flattenAll (ss ++ ts) = flattenAll ss ++ flattenAll ts := by
  induction ss with
  | nil => rfl
  | cons s ss ih => simp only [cons_append, flattenAll, ih, append_assoc]

@[simp] theorem idsOf_nil : idsOf [] = [] := rfl

@[simp] theorem idsOf_append (ss ts : List Stmt) : idsOf (ss ++ ts) = idsOf ss ++ idsOf ts := by
  simp only [idsOf, flattenAll_append, map_append]

@[simp] theorem idsOf_op {o : Op} : idsOf [op i o] = [i] := rfl

@[simp] theorem idsOf_rangeFor {first last : Operand} {hint : String} :
    idsOf [rangeFor i first last body hint] = i :: idsOf body := by
  simp [idsOf, flattenAll, flatten, id]

@[simp] theorem idsOf_while {condBody : List Stmt} :
    idsOf [while_ i condBody cond body] = i :: (idsOf condBody ++ idsOf body) := by
  simp [idsOf, flattenAll, flatten, id]

@[simp] theorem idsOf_ifElse {yes no : List Stmt} :
    idsOf [ifElse i cond yes no] = i :: (idsOf yes ++ idsOf no) := by
  simp [idsOf, flattenAll, flatten, id]

end Stmt

/-! ## 2. References -/

def Visible (d : Defs) : Operand → Prop
  | .const _ => True
  | .stmt i => ∃ x, (i, x) ∈ d ∧ x.ty?.isSome

def IsAddress (d : Defs) (i : StmtId) : Prop := ∃ f is o, (i, Def.op (.globalPtr f is o)) ∈ d

def IsSlot (d : Defs) (i : StmtId) (ty : Ty) : Prop := ∃ hint, (i, Def.op (.alloca ty hint)) ∈ d

/-- The operand has a type: a constant that of its literal, any other that of the statement it
names. -/
def HasTy (d : Defs) : Operand → Ty → Prop
  | .const l, ty => l.ty = ty
  | .stmt i, ty => ∃ x, (i, x) ∈ d ∧ x.ty? = some ty

section Monotone

variable {d d' : Defs} (h : d ⊆ d')
include h

theorem Visible.mono (ho : Visible d o) : Visible d' o := by
  cases o with
  | const l => trivial
  | stmt i =>
    obtain ⟨x, hx, hty⟩ := ho
    exact ⟨x, h hx, hty⟩

theorem IsAddress.mono (hi : IsAddress d i) : IsAddress d' i := by
  obtain ⟨f, is, o, hm⟩ := hi
  exact ⟨f, is, o, h hm⟩

theorem IsSlot.mono (hi : IsSlot d i ty) : IsSlot d' i ty := by
  obtain ⟨hint, hm⟩ := hi
  exact ⟨hint, h hm⟩

theorem HasTy.mono (ho : HasTy d o ty) : HasTy d' o ty := by
  cases o with
  | const l => exact ho
  | stmt i =>
    obtain ⟨x, hx, hty⟩ := ho
    exact ⟨x, h hx, hty⟩

end Monotone

namespace AtomicTarget

def indices : AtomicTarget → List Operand
  | .global .. => []
  | .local _ is => is

end AtomicTarget

namespace Op

/-- The operands whose values the statement takes, apart from those that select an element of a
field. -/
def operands : Op → List Operand
  | localLoad _ is _ => is
  | localStore _ is v => v :: is
  | globalPtr _ _ offset => [offset]
  | globalStore _ v => [v]
  | binary _ l r _ _ => [l, r]
  | unary _ x _ => [x]
  | compose parts _ => parts
  | extract v is _ => v :: is
  | atomic target _ v _ => v :: target.indices
  | call _ args _ _ => args
  | texture _ _ coords value _ => coords :: value.toList
  | ret v _ => [v]
  | _ => []

def elementIndices : Op → List Operand
  | globalPtr _ is _ => is
  | _ => []

def ptr? : Op → Option StmtId
  | globalLoad p _ | globalStore p _ => some p
  | atomic (.global _ p) _ _ _ => some p
  | _ => none

/-- Every reference of a statement names what it should: operands a value among `values`, element
indices one among `indices`, addresses an address among `values`, and slots a slot among `slots`. -/
structure Scoped (values indices slots : Defs) (o : Op) : Prop where
  operands : ∀ x ∈ o.operands, Visible values x
  elementIndices : ∀ x ∈ o.elementIndices, Visible indices x
  ptr : ∀ p, o.ptr? = some p → IsAddress values p
  slot : ∀ s, o.slot? = some s → ∃ ty, IsSlot slots s ty

theorem Scoped.mono {v i s v' i' s' : Defs} {o : Op} (h : o.Scoped v i s) (hv : v ⊆ v')
    (hi : i ⊆ i') (hs : s ⊆ s') : o.Scoped v' i' s' where
  operands x hx := (h.operands x hx).mono hv
  elementIndices x hx := (h.elementIndices x hx).mono hi
  ptr p hp := (h.ptr p hp).mono hv
  slot t ht := by
    obtain ⟨ty, hty⟩ := h.slot t ht
    exact ⟨ty, hty.mono hs⟩

end Op

namespace Task

def outer (t : Task) : Defs :=
  match t.loop with
  | none => defsOf t.body
  | some _ => []

def ids (t : Task) : List StmtId :=
  (match t.loop with
    | none => []
    | some l => idsOf l.prologue ++ [l.index]) ++ idsOf t.body

end Task

/-! ## 3. Checks -/

/-- A condition on the statements of a program, each judged in the definitions before it. -/
structure Check where
  op : Defs → Op → Prop
  /-- The bounds of a loop and the hint for the name of its index. -/
  loop : Defs → Operand → Operand → String → Prop
  cond : Defs → Operand → Prop

namespace Check

variable {c : Check} {c' : Defs → Check} {t : Task} {past here : Defs} {ts : List Task}

mutual

def stmt (c : Check) (here : Defs) : Stmt → Prop
  | .op _ o => c.op here o
  | .rangeFor i first last body hint => c.loop here first last hint ∧ c.block (here ++ [(i, .index)]) body
  | .while_ _ condBody cond body =>
    c.block here condBody ∧ c.cond (here ++ defsOf condBody) cond ∧ c.block here body
  | .ifElse _ cond yes no => c.cond here cond ∧ c.block here yes ∧ c.block here no

/-- A block: each statement sees the definitions around the block and those before it in the block.
-/
def block (c : Check) (here : Defs) : List Stmt → Prop
  | [] => True
  | s :: ss => c.stmt here s ∧ c.block (here ++ s.defs) ss

end

/-- A task: the body of a parallel loop sees the statements that compute its bounds, and the index.
-/
def task (c : Check) (t : Task) : Prop :=
  match t.loop with
  | none => c.block [] t.body
  | some l =>
    c.block [] l.prologue ∧ c.loop (defsOf l.prologue) l.first l.last l.hint
      ∧ c.block (defsOf l.prologue ++ [(l.index, .index)]) t.body

/-- The tasks of a kernel, each checked in view of what the tasks before it define. -/
def tasks (c : Defs → Check) : Defs → List Task → Prop
  | _, [] => True
  | past, t :: ts => (c past).task t ∧ tasks c (past ++ t.outer) ts

structure Implies (c c' : Check) : Prop where
  op {d d' : Defs} {o : Op} : d ⊆ d' → c.op d o → c'.op d' o
  loop {d d' : Defs} {first last : Operand} {hint : String} :
    d ⊆ d' → c.loop d first last hint → c'.loop d' first last hint
  cond {d d' : Defs} {o : Operand} : d ⊆ d' → c.cond d o → c'.cond d' o

mutual

theorem Implies.stmt {c c' : Check} (h : c.Implies c') {d d' : Defs} (hd : d ⊆ d') :
    (s : Stmt) → c.stmt d s → c'.stmt d' s
  | .op i o, hs => by
    simp only [Check.stmt] at hs ⊢
    exact h.op hd hs
  | .rangeFor i first last body hint, hs => by
    exact ⟨h.loop hd hs.1, h.block (Defs.append_mono_left hd) body hs.2⟩
  | .while_ i condBody cond body, hs => by
    exact ⟨h.block hd condBody hs.1,
      h.cond (Defs.append_mono_left hd) hs.2.1, h.block hd body hs.2.2⟩
  | .ifElse i cond yes no, hs => by
    exact ⟨h.cond hd hs.1, h.block hd yes hs.2.1, h.block hd no hs.2.2⟩

theorem Implies.block {c c' : Check} (h : c.Implies c') {d d' : Defs} (hd : d ⊆ d') :
    (ss : List Stmt) → c.block d ss → c'.block d' ss
  | [], _ => trivial
  | s :: ss, hs => by
    simp only [Check.block] at hs ⊢
    exact ⟨h.stmt hd s hs.1, h.block (Defs.append_mono_left hd) ss hs.2⟩

end

theorem Implies.task {c' : Check} (h : c.Implies c') (ht : c.task t) : c'.task t := by
  unfold Check.task at ht ⊢
  split at ht
  · exact h.block (.refl _) _ ht
  · exact ⟨h.block (.refl _) _ ht.1, h.loop (.refl _) ht.2.1,
      h.block (.refl _) _ ht.2.2⟩

@[simp] theorem block_nil : c.block here [] := trivial

theorem block_append {ss ts : List Stmt} :
    c.block here (ss ++ ts) ↔ c.block here ss ∧ c.block (here ++ defsOf ss) ts := by
  induction ss generalizing here with
  | nil => simp
  | cons s ss ih =>
    simp only [cons_append, Check.block, ih, defsOf_cons, append_assoc, and_assoc]

theorem tasks_append {c : Defs → Check} {us : List Task} :
    tasks c past (ts ++ us) ↔ tasks c past ts ∧ tasks c (past ++ ts.flatMap Task.outer) us := by
  induction ts generalizing past with
  | nil => simp [tasks]
  | cons t ts ih =>
    simp only [cons_append, tasks, ih, flatMap_cons, append_assoc, and_assoc]

theorem Implies.tasks {c : Defs → Check} (h : ∀ past, (c past).Implies (c' past))
    (ht : Check.tasks c past ts) : Check.tasks c' past ts := by
  induction ts generalizing past with
  | nil => trivial
  | cons t ts ih => exact ⟨(h past).task ht.1, ih ht.2⟩

theorem tasks_mem (h : Check.tasks (fun _ => c) past ts) : ∀ t ∈ ts, c.task t := by
  induction ts generalizing past with
  | nil => nofun
  | cons t ts ih => exact forall_mem_cons.2 ⟨h.1, ih h.2⟩

def both (c c' : Check) : Check where
  op d o := c.op d o ∧ c'.op d o
  loop d first last hint := c.loop d first last hint ∧ c'.loop d first last hint
  cond d o := c.cond d o ∧ c'.cond d o

mutual

theorem both_stmt {c c' : Check} {d : Defs} :
    (s : Stmt) → c.stmt d s → c'.stmt d s → (c.both c').stmt d s
  | .op _ _, h, h' => by
    exact ⟨h, h'⟩
  | .rangeFor _ _ _ body _, h, h' => by
    exact ⟨⟨h.1, h'.1⟩, both_block body h.2 h'.2⟩
  | .while_ _ condBody _ body, h, h' => by
    exact ⟨both_block condBody h.1 h'.1, ⟨h.2.1, h'.2.1⟩, both_block body h.2.2 h'.2.2⟩
  | .ifElse _ _ yes no, h, h' => by
    exact ⟨⟨h.1, h'.1⟩, both_block yes h.2.1 h'.2.1, both_block no h.2.2 h'.2.2⟩

theorem both_block {c c' : Check} {d : Defs} :
    (ss : List Stmt) → c.block d ss → c'.block d ss → (c.both c').block d ss
  | [], _, _ => trivial
  | s :: ss, h, h' => by
    exact ⟨both_stmt s h.1 h'.1, both_block ss h.2 h'.2⟩

end

theorem both_task {c' : Check} (h : c.task t) (h' : c'.task t) : (c.both c').task t := by
  obtain ⟨loop, body⟩ := t
  cases loop with
  | none => exact both_block body h h'
  | some l => exact ⟨both_block _ h.1 h'.1, ⟨h.2.1, h'.2.1⟩, both_block _ h.2.2 h'.2.2⟩

theorem both_tasks {c : Defs → Check} (h : Check.tasks c past ts)
    (h' : Check.tasks c' past ts) : Check.tasks (fun past => (c past).both (c' past)) past ts := by
  induction ts generalizing past with
  | nil => trivial
  | cons t ts ih => exact ⟨both_task h.1 h'.1, ih h.2 h'.2⟩

end Check

/-! ## 4. Deciding -/

def Def.isAddress : Def → Bool
  | .op (.globalPtr ..) => true
  | _ => false

def Def.slotTy? : Def → Option Ty
  | .op (.alloca ty _) => some ty
  | _ => none

theorem isAddress_iff {d : Defs} : IsAddress d i ↔ ∃ p ∈ d, p.1 = i ∧ p.2.isAddress := by
  constructor
  · rintro ⟨f, is, o, h⟩
    exact ⟨_, h, rfl, rfl⟩
  · rintro ⟨⟨_, x⟩, h, rfl, hx⟩
    cases x with
    | op o =>
      cases o with
      | globalPtr f is o => exact ⟨f, is, o, h⟩
      | _ => cases hx
    | index => cases hx

theorem isSlot_iff {d : Defs} : IsSlot d i ty ↔ ∃ p ∈ d, p.1 = i ∧ p.2.slotTy? = some ty := by
  constructor
  · rintro ⟨hint, h⟩
    exact ⟨_, h, rfl, rfl⟩
  · rintro ⟨⟨_, x⟩, h, rfl, hx⟩
    cases x with
    | op o =>
      cases o with
      | alloca t hint =>
        obtain rfl := Option.some.inj hx
        exact ⟨hint, h⟩
      | _ => cases hx
    | index => cases hx

instance (d : Defs) : (o : Operand) → Decidable (Visible d o)
  | .const _ => .isTrue trivial
  | .stmt i => decidable_of_iff (∃ p ∈ d, p.1 = i ∧ p.2.ty?.isSome)
      ⟨fun ⟨p, hp, hi, hs⟩ => ⟨p.2, hi ▸ hp, hs⟩, fun ⟨x, hx, hs⟩ => ⟨(i, x), hx, rfl, hs⟩⟩

instance (d : Defs) (i : StmtId) : Decidable (IsAddress d i) :=
  decidable_of_iff _ isAddress_iff.symm

instance (d : Defs) (i : StmtId) : Decidable (∃ ty, IsSlot d i ty) :=
  decidable_of_iff (∃ p ∈ d, p.1 = i ∧ p.2.slotTy?.isSome) <| by
    simp only [isSlot_iff, Option.isSome_iff_exists]
    exact ⟨fun ⟨p, hp, hi, ty, h⟩ => ⟨ty, p, hp, hi, h⟩, fun ⟨ty, p, hp, hi, h⟩ => ⟨p, hp, hi, ty, h⟩⟩

instance (values indices slots : Defs) (o : Op) : Decidable (o.Scoped values indices slots) :=
  decidable_of_iff
    ((∀ x ∈ o.operands, Visible values x) ∧ (∀ x ∈ o.elementIndices, Visible indices x)
      ∧ (∀ p ∈ o.ptr?, IsAddress values p) ∧ ∀ s ∈ o.slot?, ∃ ty, IsSlot slots s ty)
    ⟨fun ⟨ho, hi, hp, hs⟩ => ⟨ho, hi, hp, hs⟩, fun h => ⟨h.operands, h.elementIndices, h.ptr, h.slot⟩⟩

namespace Check

section Decide

variable (c : Check) [hop : ∀ d o, Decidable (c.op d o)]
  [hloop : ∀ d first last hint, Decidable (c.loop d first last hint)]
  [hcond : ∀ d o, Decidable (c.cond d o)]

mutual

def decideStmt (d : Defs) : (s : Stmt) → Decidable (c.stmt d s)
  | .op _ _ => hop _ _
  | .rangeFor _ _ _ body _ => @instDecidableAnd _ _ (hloop _ _ _ _) (decideBlock _ body)
  | .while_ _ condBody _ body =>
    @instDecidableAnd _ _ (decideBlock d condBody) (@instDecidableAnd _ _ (hcond _ _) (decideBlock d body))
  | .ifElse _ _ yes no =>
    @instDecidableAnd _ _ (hcond _ _) (@instDecidableAnd _ _ (decideBlock d yes) (decideBlock d no))

def decideBlock (d : Defs) : (ss : List Stmt) → Decidable (c.block d ss)
  | [] => .isTrue trivial
  | s :: ss => @instDecidableAnd _ _ (decideStmt d s) (decideBlock _ ss)

end

instance decideTask : (t : Task) → Decidable (c.task t)
  | ⟨none, body⟩ => decideBlock c [] body
  | ⟨some _, body⟩ =>
    @instDecidableAnd _ _ (decideBlock c [] _) (@instDecidableAnd _ _ (hloop _ _ _ _) (decideBlock c _ body))

end Decide

instance decideTasks (c : Defs → Check) [∀ past d o, Decidable ((c past).op d o)]
    [∀ past d first last hint, Decidable ((c past).loop d first last hint)]
    [∀ past d o, Decidable ((c past).cond d o)] (past : Defs) :
    (ts : List Task) → Decidable (tasks c past ts)
  | [] => .isTrue trivial
  | t :: ts => @instDecidableAnd _ _ (decideTask (c past) t) (decideTasks c _ ts)

end Check

end ArrayKernel.IR
