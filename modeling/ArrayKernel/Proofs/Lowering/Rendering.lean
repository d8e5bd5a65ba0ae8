import ArrayKernel.Proofs.Lowering.Quiet

/-!
# What a program becomes

`Renders K A p es` says that the effects `es` are what the part `p` of a program became, where `A`
has the loops most closely around it, of the program and of the kernel, and only routines in `K`
were expanded. From this it follows where jumps stand (`Renders.proper`).
-/

namespace ArrayKernel

open IR Surface List Stmt IR.Stmt

/-! ## 1. Where simple statements stand -/

namespace IR

mutual

/-- All simple statements inside may stand where a loop can be left or not, and continued or not.
Nothing can be left or continued from the condition of a loop. -/
def Stmt.proper (leave next : Bool) : Stmt → Bool
  | .op _ o => o.proper leave next
  | .rangeFor _ _ _ body _ => allProper true true body
  | .while_ _ condBody _ body => allProper false false condBody && allProper true true body
  | .ifElse _ _ yes no => allProper leave next yes && allProper leave next no

def Stmt.allProper (leave next : Bool) : List Stmt → Bool
  | [] => true
  | s :: ss => proper leave next s && allProper leave next ss

end

/-- Every jump of the task is in the body of a loop that it leaves or continues, and nothing is a
result. A task that is a loop can be continued, and not left; its bounds are computed outside of
it. -/
def Task.proper (t : Task) : Bool :=
  match t.loop with
  | none => allProper false false t.body
  | some l => allProper false false l.prologue && allProper false true t.body

variable {leave next : Bool}

theorem Op.proper_of_quiet {o : Op} (h : o.proper false false) : o.proper leave next := by
  cases o with
  | loopControl c => cases c <;> cases h
  | ret => cases h
  | _ => rfl

theorem Stmt.allProper_iff {ss : List Stmt} :
    allProper leave next ss = true ↔ ∀ s ∈ ss, proper leave next s = true := by
  induction ss with
  | nil => simp [allProper]
  | cons s ss ih => rw [allProper, Bool.and_eq_true, ih, forall_mem_cons]

mutual

theorem Stmt.proper_of_quiet : (s : Stmt) → proper false false s = true → proper leave next s = true
  | .op _ _, h => Op.proper_of_quiet h
  | .rangeFor .., h | .while_ .., h => h
  | .ifElse _ _ yes no, h => by
    rw [proper, Bool.and_eq_true] at h ⊢
    exact ⟨allProper_of_quiet yes h.1, allProper_of_quiet no h.2⟩

theorem Stmt.allProper_of_quiet :
    (ss : List Stmt) → allProper false false ss = true → allProper leave next ss = true
  | [], _ => rfl
  | s :: ss, h => by
    rw [allProper, Bool.and_eq_true] at h ⊢
    exact ⟨proper_of_quiet s h.1, allProper_of_quiet ss h.2⟩

end

end IR

namespace Lowering

/-! ## 2. Effects -/

inductive Effect where
  | push (s : IR.Stmt)
  | cut
  | task (t : Task)
  | result (ty : Ty)

def code (ss : List IR.Stmt) : List Effect := ss.map .push

variable {ss : List IR.Stmt} {es : List Effect}

@[simp] theorem code_append {ts : List IR.Stmt} : code (ss ++ ts) = code ss ++ code ts := map_append

structure Layout where
  tasks : List Task := []
  block : List IR.Stmt := []
  ret : Option Ty := none

namespace Layout

def apply (l : Layout) : Effect → Layout
  | .push s => { l with block := l.block ++ [s] }
  | .cut => if l.block.isEmpty then l else { l with tasks := l.tasks ++ [{ body := l.block }], block := [] }
  | .task t => { l with tasks := l.tasks ++ [t] }
  | .result ty => { l with ret := some ty }

def after (l : Layout) (es : List Effect) : Layout := es.foldl apply l

@[simp] theorem after_nil {l : Layout} : l.after [] = l := rfl

@[simp] theorem after_append (l : Layout) (es es' : List Effect) :
    l.after (es ++ es') = (l.after es).after es' :=
  foldl_append

theorem after_code {l : Layout} : l.after (code ss) = { l with block := l.block ++ ss } := by
  induction ss generalizing l with
  | nil => simp [code]
  | cons s ss ih =>
    show (l.apply (.push s)).after (code ss) = _
    rw [ih, apply]
    simp

theorem block_cut (l : Layout) : (l.after [.cut]).block = [] := by
  show (ite _ _ _ : Layout).block = []
  split
  · exact isEmpty_iff.1 ‹_›
  · rfl

end Layout

/-! ## 3. Parts of programs -/

structure Around where
  /-- The loop of the routine that the part is in, and the id of what it became. A loop that is
  unrolled becomes none. -/
  source : Option (Surface.Stmt × Option StmtId) := none
  /-- The loop of the kernel, and whether it is spread over threads. -/
  device : Option (StmtId × Bool) := none

namespace Around

def loop (s : Surface.Stmt) (i : StmtId) (spread : Bool) : Around :=
  ⟨some (s, some i), some (i, spread)⟩

def copy (A : Around) (s : Surface.Stmt) : Around := { A with source := some (s, none) }

def call (A : Around) : Around := { A with source := none }

/-- The loop of the kernel is what the loop of the program became. -/
def Aligned (A : Around) (spread : Bool) : Prop :=
  ∃ s i, A.source = some (s, some i) ∧ A.device = some (i, spread)

def leave (A : Around) : Bool := A.source.any (·.2.isSome) && A.device.any (!·.2)

def next (A : Around) : Bool := A.source.any (·.2.isSome) && A.device.isSome

end Around

end Lowering

namespace Surface

/-! ## 4. Routines in programs -/

mutual

/-- The functions that are written in an expression. Those that are written in their bodies do not
count. -/
def Expr.routines : Expr → List Routine
  | .arrow _ r => [r]
  | .array _ items => Expr.routinesOf items
  | .object _ members => Member.routinesOf members
  | .member _ base _ => base.routines
  | .index _ base is => base.routines ++ Expr.routinesOf is
  | .call _ callee args => callee.routines ++ Expr.routinesOf args
  | .unary _ _ e => e.routines
  | .binary _ _ l r => l.routines ++ r.routines
  | .conditional _ c yes no => c.routines ++ yes.routines ++ no.routines
  | _ => []

def Expr.routinesOf : List Expr → List Routine
  | [] => []
  | e :: es => e.routines ++ Expr.routinesOf es

def Member.routinesOf : List Member → List Routine
  | [] => []
  | .mk _ e :: ms => e.routines ++ Member.routinesOf ms

end

mutual

def Stmt.routines : Stmt → List Routine
  | .decl _ _ _ (some e) | .return_ _ (some e) | .expr _ e => e.routines
  | .function _ r => [r]
  | .ifElse _ c yes none => c.routines ++ yes.routines
  | .ifElse _ c yes (some no) => c.routines ++ yes.routines ++ no.routines
  | .forOf _ _ iter body => iter.routines ++ body.routines
  | .while_ _ c body => c.routines ++ body.routines
  | .block _ body => Stmt.routinesOf body
  | .assign _ _ place value => place.routines ++ value.routines
  | _ => []

def Stmt.routinesOf : List Stmt → List Routine
  | [] => []
  | s :: ss => s.routines ++ Stmt.routinesOf ss

end

end Surface

namespace Lowering

/-- The routines that a kernel may call: those that are written in it or in another such routine,
those that the scope and the templates give, and the library. -/
inductive Callable (r : Routine) (scope : Scope) (templates : List (String × Value)) :
    Routine → Prop
  | written {g : Routine} (h : g ∈ Stmt.routinesOf r.body) : Callable r scope templates g
  | inner {f g : Routine} (hf : Callable r scope templates f)
      (h : g ∈ Stmt.routinesOf f.body) : Callable r scope templates g
  | scope {p : String × Value} {g : Routine} (hp : p ∈ scope.table)
      (h : .routine g ∈ p.2.held) : Callable r scope templates g
  | receiver {v : Value} {g : Routine} (hv : scope.receiver = some v)
      (h : .routine g ∈ v.held) : Callable r scope templates g
  | template {p : String × Value} {g : Routine} (hp : p ∈ templates)
      (h : .routine g ∈ p.2.held) : Callable r scope templates g
  | library {name : String} {f : FunctionValue} (h : libraryFunction? name = some f) : Callable r
      scope templates f.routine

/-! ## 5. What parts become -/

inductive Part where
  /-- What a value is computed from: an expression, the bounds of a loop or the parts of its index.
  -/
  | value
  | stmt (s : Surface.Stmt)
  | body (ss : List Surface.Stmt)

/-- The statements that a part is made of, as far as they are in no loop. -/
def Part.parts : Part → List Surface.Stmt
  | .body ss | .stmt (.block _ ss) => ss
  | .stmt (.ifElse _ _ yes no) => yes :: no.toList
  | _ => []

inductive Renders (K : Routine → Prop) : Around → Part → List Effect → Prop
  | nothing {A : Around} {p : Part} : Renders K A p []
  | op {A : Around} {p : Part} {i : StmtId} {o : Op} (ho : o.proper false false) : Renders K A p (code [.op i o])
  | seq {A : Around} {p : Part} {es es' : List Effect} (h : Renders K A p es)
    (h' : Renders K A p es') : Renders K A p (es ++ es')
  | branch {A : Around} {p : Part} {i : StmtId} {c : Operand} {yes no : List IR.Stmt} (hyes : Renders K A p (code yes))
    (hno : Renders K A p (code no)) : Renders K A p (code [.ifElse i c yes no])
  | call {A : Around} {p : Part} {r : Routine} {es : List Effect} (hr : K r)
    (h : Renders K A.call (.body r.body) es) : Renders K A p es
  | part {A : Around} {p : Part} {s : Surface.Stmt} {es : List Effect} (hs : s ∈ p.parts)
    (h : Renders K A (.stmt s) es) : Renders K A p es
  | forOf {A : Around} {span : Span} {binding : Binding} {iter : Expr} {body : Surface.Stmt}
    {i : StmtId} {first last : Operand} {ss : List IR.Stmt} {hint : String}
    (h : Renders K (.loop (.forOf span binding iter body) i false) (.stmt body) (code ss)) :
    Renders K A (.stmt (.forOf span binding iter body)) (code [.rangeFor i first last ss hint])
  | cut {A : Around} {p : Part} : Renders K A p [.cut]
  | parallelFor {A : Around} {span : Span} {binding : Binding} {iter : Expr} {body : Surface.Stmt}
    {l : ParallelLoop} {ss : List IR.Stmt} (hbounds : Renders K A .value (code l.prologue))
    (h : Renders K (.loop (.forOf span binding iter body) l.index true) (.stmt body) (code ss)) :
    Renders K A (.stmt (.forOf span binding iter body)) [.task { loop := some l, body := ss }]
  | unrolled {A : Around} {span : Span} {binding : Binding} {iter : Expr} {body : Surface.Stmt}
    {es : List Effect} (h : Renders K (A.copy (.forOf span binding iter body)) (.stmt body) es) :
    Renders K A (.stmt (.forOf span binding iter body)) es
  | while_ {A : Around} {span : Span} {cond : Expr} {body : Surface.Stmt} {i : StmtId} {c : Operand}
    {condBody ss : List IR.Stmt} (hcond : Renders K A .value (code condBody))
    (h : Renders K (.loop (.while_ span cond body) i false) (.stmt body) (code ss)) :
    Renders K A (.stmt (.while_ span cond body)) (code [.while_ i condBody c ss])
  | break_ {A : Around} {span : Span} {i : StmtId} (hA : A.Aligned false) :
    Renders K A (.stmt (.break_ span)) (code [.op i (.loopControl .break_)])
  | continue_ {A : Around} {span : Span} {i : StmtId} {spread : Bool} (hA : A.Aligned spread) :
    Renders K A (.stmt (.continue_ span)) (code [.op i (.loopControl .continue_)])

/-! ## 6. Jumps stand in loops -/

/-- All simple statements of an effect may stand where they do, and no result is given. -/
def Effect.proper (leave next : Bool) : Effect → Bool
  | .push s => s.proper leave next
  | .task t => t.proper
  | .cut => true
  | .result _ => false

def Proper (leave next : Bool) (es : List Effect) : Prop := ∀ e ∈ es, e.proper leave next = true

section

variable {leave next : Bool}

theorem proper_code : Proper leave next (code ss) ↔ allProper leave next ss = true := by
  rw [allProper_iff, Proper, code, forall_mem_map]
  rfl

theorem proper_push {s : IR.Stmt} : Proper leave next (code [s]) ↔ s.proper leave next = true :=
  forall_mem_singleton

theorem Proper.of_quiet (h : Proper false false es) : Proper leave next es := by
  intro e he
  have hpe := h e he
  cases e with
  | push s => exact proper_of_quiet s hpe
  | _ => exact hpe

end

/-- Whether a jump of the part finds a loop that it can leave. An expression has none of its own.
-/
def Part.leave (A : Around) : Part → Bool
  | .value => false
  | _ => A.leave

def Part.next (A : Around) : Part → Bool
  | .value => false
  | _ => A.next

theorem Renders.proper {K : Routine → Prop} {A : Around} {p : Part} (h : Renders K A p es) :
    Proper (p.leave A) (p.next A) es := by
  induction h with
  | nothing => exact forall_mem_nil _
  | op ho => exact proper_push.2 (Op.proper_of_quiet ho)
  | seq _ _ ih ih' => exact forall_mem_append.2 ⟨ih, ih'⟩
  | branch _ _ hyes hno =>
    rw [proper_push, IR.Stmt.proper, Bool.and_eq_true]
    exact ⟨proper_code.1 hyes, proper_code.1 hno⟩
  | call _ _ ih => exact .of_quiet ih
  | @part A p s es hs _ ih =>
    cases p with
    | value => cases hs
    | _ => exact ih
  | forOf _ ih =>
    rw [proper_push, IR.Stmt.proper]
    exact proper_code.1 ih
  | cut => exact forall_mem_singleton.2 rfl
  | parallelFor _ _ hbounds ih =>
    refine forall_mem_singleton.2 ?_
    rw [Effect.proper, Task.proper, Bool.and_eq_true]
    exact ⟨proper_code.1 hbounds, proper_code.1 ih⟩
  | unrolled _ ih => exact .of_quiet ih
  | while_ _ _ hcond ih =>
    rw [proper_push, IR.Stmt.proper, Bool.and_eq_true]
    exact ⟨proper_code.1 hcond, proper_code.1 ih⟩
  | break_ hA =>
    obtain ⟨s, i, hsource, hdevice⟩ := hA
    rw [proper_push]
    simp only [Part.leave, Around.leave, hsource, hdevice]
    rfl
  | continue_ hA =>
    obtain ⟨s, i, hsource, hdevice⟩ := hA
    rw [proper_push]
    simp only [Part.next, Around.next, hsource, hdevice]
    rfl

end Lowering

end ArrayKernel
