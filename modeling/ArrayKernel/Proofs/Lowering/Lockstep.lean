import Mathlib.Data.List.Perm.Basic
import ArrayKernel.Proofs.IR.Definitions
import ArrayKernel.Proofs.Lowering.Rendering

/-!
# Two runs side by side

`Lockstep σ hand m m' Q` says that the steps `m` and `m'`, with two ways to expand calls, do the
same where `σ` is the part of the program that they lower, and that `Q` holds of the value and of
the effects. `hand` are the ids that have been given out but whose statements are in no block yet.
-/

namespace ArrayKernel.Lowering

open IR Surface List IR.Stmt

variable {hand' : List StmtId} {s : IR.Stmt} {t : Task} {ss : List IR.Stmt} {kind : LoopKind}
  {es es' : List Effect} {P P' w w' : Prop} {A : Around} {p : Part}

/-! ## 1. Ids -/

def Builder.held (b : Builder) : List StmtId :=
  idsOf b.block.toList ++ b.tasks.toList.flatMap Task.ids ++ idsOf b.idle

/-- Together with those in hand, these are all ids that have been given out. -/
def Accounted (hand : List StmtId) (b : Builder) : Prop :=
  (b.held ++ hand).Perm (List.range b.nextId)

section

variable {hand : List StmtId} {b : Builder}

theorem accounted_iff : Accounted hand b ↔
    ∀ i, (idsOf b.block.toList).count i + (b.tasks.toList.flatMap Task.ids).count i
      + (idsOf b.idle).count i + hand.count i = (List.range b.nextId).count i := by
  simp only [Accounted, Builder.held, perm_iff_count, count_append]

theorem accounted_start : Accounted [] {} := .refl _

theorem Accounted.perm (h : Accounted hand b) (hp : hand.Perm hand') : Accounted hand' b :=
  (hp.symm.append_left b.held).trans h

theorem Accounted.freshId (h : Accounted hand b) :
    Accounted (b.nextId :: hand) { b with nextId := b.nextId + 1 } := by
  rw [accounted_iff] at h ⊢
  intro i
  have hi := h i
  simp only [range_succ, count_append, count_cons, count_nil] at hi ⊢
  omega

theorem Accounted.push (h : Accounted (idsOf [s] ++ hand) b) :
    Accounted hand { b with block := b.block.push s } := by
  rw [accounted_iff] at h ⊢
  intro i
  have hi := h i
  simp only [Array.toList_push, idsOf_append, count_append] at hi ⊢
  omega

theorem Accounted.addTask (h : Accounted (t.ids ++ hand) b) :
    Accounted hand { b with tasks := b.tasks.push t } := by
  rw [accounted_iff] at h ⊢
  intro i
  have hi := h i
  simp only [Array.toList_push, flatMap_append, flatMap_singleton, count_append] at hi ⊢
  omega

theorem Accounted.leaveOut (h : Accounted (idsOf ss ++ hand) b) :
    Accounted hand { b with idle := b.idle ++ ss } := by
  rw [accounted_iff] at h ⊢
  intro i
  have hi := h i
  simp only [idsOf_append, count_append] at hi ⊢
  omega

theorem Accounted.flush (h : Accounted hand b) :
    Accounted hand { b with tasks := b.tasks.push { body := b.block.toList }, block := #[] } := by
  rw [accounted_iff] at h ⊢
  intro i
  have hi := h i
  simp only [Array.toList_push, flatMap_append, flatMap_singleton, Task.ids,
    count_append, idsOf_nil, count_nil] at hi ⊢
  omega

theorem Accounted.swap {other : Array IR.Stmt} (h : Accounted (idsOf other.toList ++ hand) b) :
    Accounted (idsOf b.block.toList ++ hand) { b with block := other } := by
  rw [accounted_iff] at h ⊢
  intro i
  have hi := h i
  simp only [count_append] at hi ⊢
  omega

end

/-! ## 2. Steps that do the same -/

structure SameStacks (b b' : Builder) : Prop where
  inlining : b'.inlining = b.inlining
  loops : b'.loops = b.loops

theorem SameStacks.refl (b : Builder) : SameStacks b b := ⟨rfl, rfl⟩

theorem SameStacks.trans {b1 b2 b3 : Builder} (h : SameStacks b1 b2) (h' : SameStacks b2 b3) :
    SameStacks b1 b3 :=
  ⟨h'.inlining.trans h.inlining, h'.loops.trans h.loops⟩

def Builder.layout (b : Builder) : Layout := ⟨b.tasks.toList, b.block.toList, b.ret⟩

structure Site where
  stack : List (Origin × Span) := []
  loop : Option LoopKind := none
  around : Around := {}
  part : Part := .value
  top : Bool := false
  /-- The slots that may be written to, and the routines that may be expanded. -/
  held : Held → Prop := fun _ => True

def Site.Fits (σ : Site) (b : Builder) : Prop := b.loops.head? = σ.loop ∧ b.inlining = σ.stack

variable {α β : Type}

inductive Outcome (hand : List StmtId) (b : Builder) (Q : α → List Effect → List StmtId → Prop) :
    EStateM.Result Refusal Builder α → Prop
  | ok {a : α} {b' : Builder} {left : List StmtId} (es : List Effect) (kept : SameStacks b b')
    (layout : b'.layout = b.layout.after es) (ids : Accounted hand b → Accounted left b') (post : Q a es left) :
    Outcome hand b Q (.ok a b')
  | error {e : Refusal} {b' : Builder} (kept : SameStacks b b') : Outcome hand b Q (.error e b')

def Lockstep (σ : Site) (hand : List StmtId) (m m' : Lower α)
    (Q : α → List Effect → List StmtId → Prop) : Prop :=
  ∀ b : Builder, σ.Fits b → m b = m' b ∧ Outcome hand b Q (m b)

namespace Lockstep

variable {σ : Site} {hand : List StmtId} {m m' : Lower α} {f f' : α → Lower β}
  {P Q : α → List Effect → List StmtId → Prop} {R : β → List Effect → List StmtId → Prop}
  {g : Refusal → Refusal}

theorem imp (hm : Lockstep σ hand m m' P) (h : ∀ a es left, P a es left → Q a es left) :
    Lockstep σ hand m m' Q := by
  intro b hb
  obtain ⟨hsame, hrun⟩ := hm b hb
  refine ⟨hsame, ?_⟩
  generalize m b = r at hrun ⊢
  cases hrun with
  | ok es kept layout ids post => exact .ok es kept layout ids (h _ _ _ post)
  | error kept => exact .error kept

theorem perm (hm : Lockstep σ hand m m' Q) (hp : hand'.Perm hand) : Lockstep σ hand' m m' Q := by
  intro b hb
  obtain ⟨hsame, hrun⟩ := hm b hb
  refine ⟨hsame, ?_⟩
  generalize m b = r at hrun ⊢
  cases hrun with
  | ok es kept layout ids post => exact .ok es kept layout (fun h => ids (h.perm hp)) post
  | error kept => exact .error kept

theorem all {V : StmtId → α → Prop}
    (hm : ∀ i, Lockstep σ hand m m' fun a es left => Q a es left ∧ V i a) :
    Lockstep σ hand m m' fun a es left => Q a es left ∧ ∀ i, V i a := by
  intro b hb
  obtain ⟨hsame, hrun⟩ := hm 0 b hb
  have hall := fun i => (hm i b hb).2
  refine ⟨hsame, ?_⟩
  generalize m b = r at hrun hall ⊢
  cases hrun with
  | error kept => exact .error kept
  | ok es kept layout ids post =>
    refine .ok es kept layout ids ⟨post.1, fun i => ?_⟩
    cases hall i with
    | ok _ _ _ _ post => exact post.2

theorem pure {a : α} (h : Q a [] hand) : Lockstep σ hand (Pure.pure a) (Pure.pure a) Q := fun b _ =>
  ⟨rfl, .ok [] (.refl b) rfl id h⟩

theorem fail (span : Span) (cause : Cause) :
    Lockstep σ hand (failAt span cause) (failAt span cause) Q := fun b _ =>
  ⟨rfl, .error (.refl b)⟩

theorem bind (hm : Lockstep σ hand m m' P)
    (hf : ∀ a es left, P a es left → Lockstep σ left (f a) (f' a) fun c es' => R c (es ++ es')) :
    Lockstep σ hand (m >>= f) (m' >>= f') R := by
  intro b hb
  obtain ⟨hsame, hfirst⟩ := hm b hb
  show EStateM.bind m f b = EStateM.bind m' f' b ∧ Outcome hand b R (EStateM.bind m f b)
  unfold EStateM.bind
  rw [← hsame]
  generalize m b = r at hfirst
  cases hfirst with
  | error kept => exact ⟨rfl, .error kept⟩
  | @ok a b1 left es kept layout ids post =>
    obtain ⟨hsame, hsecond⟩ := hf a es left post b1 ⟨kept.loops ▸ hb.1, kept.inlining.trans hb.2⟩
    refine ⟨hsame, ?_⟩
    dsimp only
    generalize f a b1 = r at hsecond
    cases hsecond with
    | error kept' => exact .error (kept.trans kept')
    | ok es' kept' layout' ids' post' =>
      refine .ok (es ++ es') (kept.trans kept') ?_ (fun h => ids' (ids h)) post'
      rw [layout', layout, Layout.after_append]

theorem get {f f' : Builder → Lower β} (h : ∀ b, σ.Fits b → Lockstep σ hand (f b) (f' b) R) :
    Lockstep σ hand (MonadState.get >>= f) (MonadState.get >>= f') R := fun b hb => h b hb b hb

theorem freshId : Lockstep σ hand freshId freshId fun i es left => es = [] ∧ i :: hand = left :=
  fun _ _ =>
  ⟨rfl, .ok [] ⟨rfl, rfl⟩ rfl Accounted.freshId ⟨rfl, rfl⟩⟩

theorem push (hp : hand'.Perm (idsOf [s] ++ hand)) :
    Lockstep σ hand' (push s) (push s) fun _ es left => es = code [s] ∧ hand = left := by
  refine fun b _ => ⟨rfl, .ok (code [s]) ⟨rfl, rfl⟩ ?_ (fun h => (h.perm hp).push) ⟨rfl, rfl⟩⟩
  rw [Layout.after_code]
  simp [Builder.layout]

theorem addTask (hp : hand'.Perm (t.ids ++ hand)) :
    Lockstep σ hand' (addTask t) (addTask t) fun _ es left => es = [.task t] ∧ hand = left := by
  refine fun b _ => ⟨rfl, .ok [.task t] ⟨rfl, rfl⟩ ?_ (fun h => (h.perm hp).addTask) ⟨rfl, rfl⟩⟩
  simp [Builder.layout, Layout.after, Layout.apply]

theorem leaveOut (ss : List IR.Stmt) :
    Lockstep σ (idsOf ss ++ hand) (leaveOut ss) (leaveOut ss) fun _ es left => es = [] ∧ hand = left := fun _ _ =>
  ⟨rfl, .ok [] ⟨rfl, rfl⟩ rfl Accounted.leaveOut ⟨rfl, rfl⟩⟩

theorem flushSerial :
    Lockstep σ hand flushSerial flushSerial fun _ es left => es = [.cut] ∧ hand = left := by
  refine fun b _ => ⟨rfl, ?_⟩
  have hempty : b.block.isEmpty = b.block.toList.isEmpty := by simp
  show Outcome _ _ _ (.ok () (ite _ _ _))
  split
  · rename_i h
    refine .ok [.cut] (.refl b) ?_ id ⟨rfl, rfl⟩
    show _ = Layout.apply b.layout .cut
    rw [Layout.apply, if_pos (hempty ▸ h)]
  · rename_i h
    refine .ok [.cut] ⟨rfl, rfl⟩ ?_ Accounted.flush ⟨rfl, rfl⟩
    show _ = Layout.apply b.layout .cut
    rw [Layout.apply, if_neg (hempty ▸ h)]
    simp [Builder.layout]

theorem emit (o : Op) :
    Lockstep σ hand (emit o) (emit o) fun i es left => es = code [.op i o] ∧ hand = left := by
  refine freshId.bind ?_
  rintro i _ _ ⟨rfl, rfl⟩
  refine (push (.refl _)).bind ?_
  rintro _ _ _ ⟨rfl, rfl⟩
  exact pure ⟨rfl, rfl⟩

/-- The block is given back with what the steps appended to it, which is then in hand. While they
run, the block that was open before is. -/
theorem captureInto {V : List IR.Stmt → Prop} {start : Array IR.Stmt}
    (hm : ∀ hand, Lockstep σ hand m m' fun _ es left => hand = left ∧ ∃ ss, es = code ss ∧ V (start.toList ++ ss)) :
    Lockstep σ (idsOf start.toList ++ hand) (captureInto start m) (captureInto start m') fun x es left =>
      es = [] ∧ idsOf x.1 ++ hand = left ∧ V x.1 := by
  intro b hb
  obtain ⟨hsame, hrun⟩ := hm (idsOf b.block.toList ++ hand) { b with block := start } hb
  unfold Lowering.captureInto
  rw [← hsame]
  refine ⟨rfl, ?_⟩
  generalize m { b with block := start } = r at hrun
  cases hrun with
  | error kept => exact .error ⟨kept.inlining, kept.loops⟩
  | @ok a b1 left es kept layout ids post =>
    obtain ⟨rfl, ss, rfl, hV⟩ := post
    rw [Layout.after_code] at layout
    have hblock : b1.block.toList = start.toList ++ ss := congrArg Layout.block layout
    refine .ok [] ⟨kept.inlining, kept.loops⟩ ?_ (fun h => (ids h.swap).swap) ⟨rfl, rfl, hblock ▸ hV⟩
    show Layout.mk b1.tasks.toList b.block.toList b1.ret = Layout.mk b.tasks.toList b.block.toList b.ret
    rw [show b1.tasks.toList = b.tasks.toList from congrArg Layout.tasks layout,
      show b1.ret = b.ret from congrArg Layout.ret layout]

/-- A step inside another: the stacks are changed on the way in and back again on the way out. -/
theorem around {σ' : Site} {enter leave : Builder → Builder} (hm : Lockstep σ' hand m m' Q)
    (henter : ∀ b, σ.Fits b → σ'.Fits (enter b))
    (hleave : ∀ b b', SameStacks (enter b) b' → SameStacks b (leave b'))
    (hlayout : ∀ b, (enter b).layout = b.layout ∧ (leave b).layout = b.layout)
    (hids : ∀ hand b, (Accounted hand b → Accounted hand (enter b)) ∧ (Accounted hand b → Accounted hand (leave b))) :
    Lockstep σ hand
      (fun b => match m (enter b) with
        | .ok a b' => .ok a (leave b')
        | .error e b' => .error (g e) (leave b'))
      (fun b => match m' (enter b) with
        | .ok a b' => .ok a (leave b')
        | .error e b' => .error (g e) (leave b')) Q := by
  intro b hb
  obtain ⟨hsame, hrun⟩ := hm (enter b) (henter b hb)
  dsimp only
  rw [← hsame]
  refine ⟨rfl, ?_⟩
  generalize m (enter b) = r at hrun
  cases hrun with
  | error kept => exact .error (hleave b _ kept)
  | ok es kept layout ids post =>
    refine .ok es (hleave b _ kept) ?_ (fun h => (hids _ _).2 (ids ((hids _ _).1 h))) post
    rw [(hlayout _).2, layout, (hlayout _).1]

theorem inLoop (hm : Lockstep { σ with loop := some kind } hand m m' Q) :
    Lockstep σ hand (inLoop kind m) (Lowering.inLoop kind m') Q :=
  hm.around (fun _ hb => ⟨rfl, hb.2⟩) (fun _ _ h => ⟨h.inlining, congrArg (List.drop 1) h.loops⟩)
    (fun _ => ⟨rfl, rfl⟩) fun _ _ => ⟨id, id⟩

theorem inFunction {k : Origin × Span}
    (hm : Lockstep { σ with stack := k :: σ.stack } hand m m' Q) :
    Lockstep σ hand (inFunction k m) (Lowering.inFunction k m') Q :=
  hm.around (fun _ hb => ⟨hb.1, congrArg (k :: ·) hb.2⟩) (fun _ _ h => ⟨congrArg (List.drop 1) h.inlining, h.loops⟩)
    (fun _ => ⟨rfl, rfl⟩) fun _ _ => ⟨id, id⟩

theorem mapError (hm : Lockstep σ hand m m' Q) :
    Lockstep σ hand (mapError g m) (Lowering.mapError g m') Q :=
  hm.around (fun _ hb => hb) (fun _ _ h => h) (fun _ => ⟨rfl, rfl⟩) fun _ _ => ⟨id, id⟩

end Lockstep

/-! ## 3. Statements that are appended -/

def Effect.statements : Effect → List IR.Stmt
  | .push s => s.flatten
  | .task t => t.statements
  | _ => []

def Each (q : StmtId → Op → Prop) (es : List Effect) : Prop :=
  ∀ e ∈ es, ∀ i o, op i o ∈ e.statements → q i o

def Made (S : Held → Prop) (i : StmtId) (o : Op) : Prop :=
  ∀ ty hint, o = .alloca ty hint → S (.slot i)

/-- If the statement writes to a slot, it is among the given ones. -/
def Written (S : Held → Prop) (_ : StmtId) (o : Op) : Prop :=
  ∀ slot, o.written? = some slot → S (.slot slot)

section

variable {q : StmtId → Op → Prop} {i : StmtId} {body : List IR.Stmt} {c : Operand}

theorem each_code : Each q (code ss) ↔ ∀ i o, op i o ∈ flattenAll ss → q i o := by
  induction ss with
  | nil => simp [Each, code, flattenAll]
  | cons s ss ih =>
    have hcons : Each q (code (s :: ss)) ↔ (∀ i o, .op i o ∈ s.flatten → q i o) ∧ Each q (code ss) :=
      forall_mem_cons
    simp only [hcons, ih, flattenAll, mem_append, or_imp, forall_and]

theorem each_op {o : Op} : Each q (code [.op i o]) ↔ q i o := by
  simp [each_code, IR.Stmt.flattenAll, IR.Stmt.flatten]

theorem each_rangeFor {first last : Operand} {hint : String} :
    Each q (code [.rangeFor i first last body hint]) ↔ Each q (code body) := by
  simp [each_code, IR.Stmt.flattenAll, IR.Stmt.flatten]

theorem each_while {condBody : List IR.Stmt} :
    Each q (code [.while_ i condBody c body]) ↔ Each q (code condBody) ∧ Each q (code body) := by
  simp [each_code, IR.Stmt.flattenAll, IR.Stmt.flatten, or_imp, forall_and]

theorem each_task {l : ParallelLoop} :
    Each q [.task { loop := some l, body }] ↔ Each q (code l.prologue) ∧ Each q (code body) := by
  simp [Each, Effect.statements, Task.statements, ← each_code, or_imp, forall_and]

theorem each_ifElse {yes no : List IR.Stmt} :
    Each q (code [.ifElse i c yes no]) ↔ Each q (code yes) ∧ Each q (code no) := by
  simp [each_code, IR.Stmt.flattenAll, IR.Stmt.flatten, or_imp, forall_and]

end

/-! ## 4. Steps that lower a part -/

/-- Other than statements are appended only at the outermost level. -/
def Site.Allows (σ : Site) (es : List Effect) : Prop := σ.top = false → ∃ ss, es = code ss

variable {σ : Site}

theorem Site.allows_nil : σ.Allows [] := fun _ => ⟨[], rfl⟩

theorem Site.Allows.append (h : σ.Allows es) (h' : σ.Allows es') : σ.Allows (es ++ es') := by
  intro htop
  obtain ⟨ss, rfl⟩ := h htop
  obtain ⟨ts, rfl⟩ := h' htop
  exact ⟨ss ++ ts, code_append.symm⟩

/-- If `P` holds and the slots that are made are among those of the site, then so are those that are
written to, the effects are what the part became, and `w` holds as well. -/
def Site.Keeps (σ : Site) (P : Prop) (es : List Effect) (w : Prop) : Prop :=
  P → Each (Made σ.held) es →
    w ∧ Each (Written σ.held) es ∧ Renders (fun r => σ.held (.routine r)) σ.around σ.part es

theorem Site.keeps_nil (h : P → w) : σ.Keeps P [] w :=
  fun hP _ => ⟨h hP, forall_mem_nil _, .nothing⟩

theorem Site.Keeps.append (h : σ.Keeps P es w) (h' : σ.Keeps (P ∧ w) es' w') :
    σ.Keeps P (es ++ es') w' := by
  intro hP hmade
  obtain ⟨hmade, hmade'⟩ := forall_mem_append.1 hmade
  obtain ⟨hw, hes, hrenders⟩ := h hP hmade
  obtain ⟨hw', hes', hrenders'⟩ := h' ⟨hP, hw⟩ hmade'
  exact ⟨hw', forall_mem_append.2 ⟨hes, hes'⟩, hrenders.seq hrenders'⟩

theorem Site.Keeps.imp (h : σ.Keeps P es w) (hP : P' → P) (hw : P' → w → w') : σ.Keeps P' es w' :=
  fun hP' hmade => (h (hP hP') hmade).imp_left (hw hP')

/-- The statements are what the part became, and write only to slots of the site and those they
make. -/
def Site.Block (σ : Site) (P : Prop) (A : Around) (p : Part) (ss : List IR.Stmt) : Prop :=
  { σ with around := A, part := p }.Keeps P (code ss) True

/-- The steps have effects that the part may have. What is left in hand depends on the value, of
which `V` is told. -/
def Takes (σ : Site) (hand : List StmtId) (m m' : Lower α) (left : α → List StmtId) (V : α → Prop)
    (P : Prop := True) (W : α → Prop := fun _ => True) : Prop :=
  Lockstep σ hand m m' fun a es rest => left a = rest ∧ V a ∧ σ.Allows es ∧ σ.Keeps P es (W a)

/-- The steps have effects that the part may have, and leave nothing in hand. If `P` holds, the
value is a `W`. -/
structure Does (σ : Site) (m m' : Lower α) (P : Prop := True) (W : α → Prop := fun _ => True) :
    Prop where
  takes (hand : List StmtId) : Takes σ hand m m' (fun _ => hand) (fun _ => True) P W

namespace Takes

variable {m m' : Lower α} {f f' : α → Lower β} {V : α → Prop} {V' : β → Prop} {P : Prop}
  {W : α → Prop} {W' : β → Prop} {hand : List StmtId} {mid : α → List StmtId}
  {left : β → List StmtId}

theorem bindWith (hm : Takes σ hand m m' mid V P W)
    (hf : ∀ a, V a → Takes σ (mid a) (f a) (f' a) left V' (P ∧ W a) W') :
    Takes σ hand (m >>= f) (m' >>= f') left V' P W' := by
  refine .bind hm ?_
  rintro a es _ ⟨rfl, hV, hes, hkeeps⟩
  refine (hf a hV).imp ?_
  rintro c es' _ ⟨rfl, hV', hes', hkeeps'⟩
  exact ⟨rfl, hV', hes.append hes', hkeeps.append hkeeps'⟩

theorem weaken {W' : α → Prop} (hm : Takes σ hand m m' mid V P W) (hP : P' → P)
    (hW : ∀ a, P' → W a → W' a) : Takes σ hand m m' mid V P' W' :=
  Lockstep.imp hm fun a _ _ h => ⟨h.1, h.2.1, h.2.2.1, h.2.2.2.imp hP (hW a)⟩

theorem bind (hm : Takes σ hand m m' mid V P W)
    (hf : ∀ a, V a → Takes σ (mid a) (f a) (f' a) left V' P W') :
    Takes σ hand (m >>= f) (m' >>= f') left V' P W' :=
  hm.bindWith fun a ha => (hf a ha).weaken And.left fun _ _ => id

theorem perm (hm : Takes σ hand m m' mid V P W) (hp : hand'.Perm hand) :
    Takes σ hand' m m' mid V P W := Lockstep.perm hm hp

theorem freshId : Takes σ hand freshId Lowering.freshId (fun i => i :: hand) (fun _ => True) P := by
  refine Lockstep.freshId.imp ?_
  rintro i _ _ ⟨rfl, rfl⟩
  exact ⟨rfl, trivial, Site.allows_nil, Site.keeps_nil fun _ => trivial⟩

theorem push (hp : hand'.Perm (idsOf [s] ++ hand)) (hs : σ.Block P σ.around σ.part [s]) :
    Takes σ hand' (push s) (Lowering.push s) (fun _ => hand) (fun _ => True) P := by
  refine (Lockstep.push hp).imp ?_
  rintro _ _ _ ⟨rfl, rfl⟩
  exact ⟨rfl, trivial, fun _ => ⟨[s], rfl⟩, hs⟩

theorem leaveOut (ss : List IR.Stmt) :
    Takes σ (idsOf ss ++ hand) (leaveOut ss) (Lowering.leaveOut ss) (fun _ => hand) (fun _ => True) P := by
  refine (Lockstep.leaveOut ss).imp ?_
  rintro _ _ _ ⟨rfl, rfl⟩
  exact ⟨rfl, trivial, Site.allows_nil, Site.keeps_nil fun _ => trivial⟩

theorem captureInto {start : List IR.Stmt} {A : Around} {p : Part} {t : Bool}
    (hstart : σ.Block P A p start) (hm : Does { σ with around := A, part := p, top := t } m m' P W)
    (ht : t = false) :
    Takes σ (idsOf start ++ hand) (captureInto start.toArray m) (Lowering.captureInto start.toArray m')
      (fun x => idsOf x.1 ++ hand) (fun x => σ.Block P A p x.1) P := by
  refine .imp (.captureInto (V := fun ss => σ.Block P A p ss) fun hand => ?_) ?_
  · refine (hm.takes hand).imp ?_
    rintro a es _ ⟨rfl, -, hes, hkeeps⟩
    obtain ⟨ss, rfl⟩ := hes ht
    refine ⟨rfl, ss, rfl, ?_⟩
    rw [Site.Block, code_append]
    exact hstart.append (hkeeps.imp And.left fun _ _ => trivial)
  · rintro x _ _ ⟨rfl, rfl, hx⟩
    exact ⟨rfl, hx, Site.allows_nil, Site.keeps_nil fun _ => trivial⟩

theorem capture {t : Bool} (hm : Does { σ with around := A, part := p, top := t } m m' P W)
    (ht : t = false) :
    Takes σ hand (capture m) (Lowering.capture m') (fun x => idsOf x.1 ++ hand) (fun x => σ.Block P A p x.1) P :=
  @captureInto _ _ _ _ _ _ _ [] _ _ _ (Site.keeps_nil fun _ => trivial) hm ht

theorem captureEach {A : StmtId → Around} {t : Bool}
    (hm : ∀ i, Does { σ with around := A i, part := p, top := t } m m' P W) (ht : t = false) :
    Takes σ hand (Lowering.capture m) (Lowering.capture m') (fun x => idsOf x.1 ++ hand)
      (fun x => ∀ i, σ.Block P (A i) p x.1) P := by
  have hall : Lockstep σ hand (Lowering.capture m) (Lowering.capture m') fun x es rest =>
      (idsOf x.1 ++ hand = rest ∧ σ.Allows es ∧ σ.Keeps P es True) ∧ ∀ i, σ.Block P (A i) p x.1 :=
    .all fun i => Lockstep.imp (capture (hm i) ht) fun _ _ _ h => ⟨⟨h.1, h.2.2⟩, h.2.1⟩
  exact hall.imp fun _ _ _ h => ⟨h.1.1, h.2, h.1.2⟩

end Takes

namespace Does

variable {m m' : Lower α} {f f' : α → Lower β} {P : Prop} {V : α → Prop} {W : β → Prop}

theorem of (a : α) (h : P → V a) : Does σ (Pure.pure a) (Pure.pure a) P V :=
  ⟨fun _ => .pure ⟨rfl, trivial, Site.allows_nil, Site.keeps_nil h⟩⟩

theorem pure (a : α) : Does σ (Pure.pure a) (Pure.pure a) P := .of a fun _ => trivial

theorem fail (span : Span) (cause : Cause) : Does σ (failAt span cause) (failAt span cause) P V :=
  ⟨fun _ => .fail span cause⟩

theorem within (hm : Does { σ with around := A, part := p } m m' P V)
    (h : ∀ es, Renders (fun r => σ.held (.routine r)) A p es → Renders
      (fun r => σ.held (.routine r)) σ.around σ.part es) :
    Does σ m m' P V :=
  ⟨fun hand => (hm.takes hand).imp fun _ es _ ⟨hleft, _, hes, hkeeps⟩ => ⟨hleft, trivial, hes, fun hP hmade =>
    have ⟨hw, hwritten, hrenders⟩ := hkeeps hP hmade
    ⟨hw, hwritten, h es hrenders⟩⟩⟩

theorem atTop (hm : Does { σ with top := false } m m' P V) : Does σ m m' P V :=
  ⟨fun hand => (hm.takes hand).imp fun _ _ _ ⟨hleft, _, hes, hkeeps⟩ => ⟨hleft, trivial, fun _ => hes rfl, hkeeps⟩⟩

theorem imp {V' : α → Prop} (hm : Does σ m m' P V) (hP : P' → P) (hV : ∀ a, P' → V a → V' a) :
    Does σ m m' P' V' :=
  ⟨fun hand => (hm.takes hand).weaken hP hV⟩

theorem along {Q : Prop} (hm : Does σ m m' P V) : Does σ m m' (P ∧ Q) V :=
  hm.imp And.left fun _ _ => id

theorem bindWith (hm : Does σ m m' P V) (hf : ∀ a, Does σ (f a) (f' a) (P ∧ V a) W) :
    Does σ (m >>= f) (m' >>= f') P W :=
  ⟨fun hand => (hm.takes hand).bindWith fun a _ => (hf a).takes hand⟩

theorem bind (hm : Does σ m m' P V) (hf : ∀ a, Does σ (f a) (f' a) P W) :
    Does σ (m >>= f) (m' >>= f') P W :=
  ⟨fun hand => (hm.takes hand).bind fun a _ => (hf a).takes hand⟩

theorem discard (hm : Does σ m m' P V) : Does σ (Functor.discard m) (Functor.discard m') P := by
  show Does σ (Function.const α () <$> m) (Function.const α () <$> m') P
  exact hm.bind fun _ => .pure _

theorem tidy (hm : Tidy σ.held P m V) : Does σ m m P V := by
  induction hm with
  | of a h => exact .of a h
  | fail span cause => exact .fail span cause
  | bind _ _ ihm ihf => exact ihm.bindWith ihf
  | imp _ hP hV ih => exact ih.imp hP hV
  | emit o ho hw =>
    refine ⟨fun hand => (Lockstep.emit o).imp ?_⟩
    rintro i _ _ ⟨rfl, rfl⟩
    exact ⟨rfl, trivial, fun _ => ⟨_, rfl⟩, fun h hmade => ⟨each_op.1 hmade, each_op.2 (hw h), .op ho⟩⟩
  | touchField f =>
    exact ⟨fun hand b _ => ⟨rfl, .ok [] ⟨rfl, rfl⟩ rfl id
      ⟨rfl, trivial, Site.allows_nil, Site.keeps_nil fun _ => trivial⟩⟩⟩
  | touchTexture t =>
    exact ⟨fun hand b _ => ⟨rfl, .ok [] ⟨rfl, rfl⟩ rfl id
      ⟨rfl, trivial, Site.allows_nil, Site.keeps_nil fun _ => trivial⟩⟩⟩

theorem quiet (hm : Quiet m V) : Does σ m m P V := .tidy (hm.tidy σ.held P)

theorem andThen {f : α → Lower β} (hm : Does σ m m' P V) (hf : ∀ a, Tidy σ.held (P ∧ V a) (f a) W) :
    Does σ (m >>= f) (m' >>= f) P W := hm.bindWith fun a => .tidy (hf a)

theorem mapM {g g' : α → Lower β} {xs : List α} (hg : ∀ x ∈ xs, Does σ (g x) (g' x) P) :
    Does σ (xs.mapM g) (xs.mapM g') P := by
  induction xs with
  | nil => exact .pure _
  | cons x xs ih =>
    obtain ⟨hx, hg⟩ := forall_mem_cons.1 hg
    rw [mapM_cons, mapM_cons]
    exact hx.bind fun _ => (ih hg).bind fun _ => .pure _

theorem forM {g g' : α → Lower Unit} (hg : ∀ x, Does σ (g x) (g' x) P) (xs : List α) :
    Does σ (xs.forM g) (xs.forM g') P := by
  induction xs with
  | nil => exact .pure _
  | cons x xs ih => exact (hg x).bind fun _ => ih

theorem inLoop (hm : Does { σ with loop := some kind } m m' P V) :
    Does σ (inLoop kind m) (Lowering.inLoop kind m') P V :=
  ⟨fun hand => .inLoop (hm.takes hand)⟩

theorem part {s : Surface.Stmt} (hm : Does { σ with part := .stmt s } m m' P V)
    (hs : s ∈ σ.part.parts) : Does σ m m' P V :=
  hm.within fun _ hes => .part hs hes

theorem inCall {f : FunctionValue} {g : Refusal → Refusal} (hf : P → σ.held (.routine f.routine))
    (hm : Does ⟨f.identity :: σ.stack, some .function, σ.around.call, .body f.routine.body, σ.top, σ.held⟩ m m' P V) :
    Does σ (mapError g (inFunction f.identity (Lowering.inLoop .function m)))
      (mapError g (inFunction f.identity (Lowering.inLoop .function m'))) P V :=
  ⟨fun hand => (Lockstep.mapError (Lockstep.inFunction (Lockstep.inLoop (hm.takes hand)))).imp
    fun _ _ _ ⟨hleft, _, hes, hkeeps⟩ => ⟨hleft, trivial, hes, fun hP hmade =>
      have ⟨hw, hwritten, hrenders⟩ := hkeeps hP hmade
      ⟨hw, hwritten, .call (hf hP) hrenders⟩⟩⟩

end Does

/-- With a routine there are those that are written in it, and all of the library is there. -/
structure CallClosed (S : Held → Prop) : Prop where
  inner {f g : Routine} (hf : S (.routine f)) (hg : g ∈ Stmt.routinesOf f.body) : S (.routine g)
  library {name : String} {f : FunctionValue} (h : libraryFunction? name = some f) : S (.routine f.routine)

theorem callClosed_all : CallClosed fun _ => True := ⟨fun _ _ => trivial, fun _ => trivial⟩

/-- Calls do the same where the functions of the stack are being expanded. They write to the slots
that they are given and to those they make, and expand routines that they find in the scope, in what
they are given or in the library. -/
structure Expands (S : Held → Prop) (stack : List (Origin × Span)) (I I' : Inliner) : Prop where
  closed : CallClosed S
  calls (σ : Site) (P : Prop) (f : FunctionValue) (args : List Arg) (receiver : Option Value)
    (scope : Scope) (span : Span)
    (hstack : σ.stack = stack) (hheld : σ.held = S) (hf : P → S (.routine f.routine))
    (hargs : P → ∀ a ∈ args, Among S a.lowered.held) (hreceiver : P → ∀ v, receiver = some v → Among S v.held)
    (hscope : P → ∀ p ∈ scope.table, ∀ g, p.2 = .function g → S (.routine g.routine)) :
    Does σ (I f args receiver scope span) (I' f args receiver scope span) P (Among S ·.held)

theorem Expands.does {S : Held → Prop} {I I' : Inliner} (hI : Expands S σ.stack I I')
    (hheld : σ.held = S) (f : FunctionValue) (args : List Arg) (receiver : Option Value)
    (scope : Scope) (span : Span) :
    Does σ (I f args receiver scope span) (I' f args receiver scope span) False (Among S ·.held) :=
  hI.calls σ False f args receiver scope span rfl hheld False.elim False.elim False.elim False.elim

end ArrayKernel.Lowering
