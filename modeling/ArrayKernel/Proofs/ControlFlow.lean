import ArrayKernel.Proofs.StatementIds

/-!
# Jumps and results

A `break` or `continue` is in the body of what the innermost loop around it in the source became
(`LoweredFrom`). So every jump finds a loop in its task, and the result, if there is one, is the
last statement of all.
-/

namespace ArrayKernel

open IR Surface List IR.Stmt

/-! ## 1. Loops and jumps -/

namespace IR.Stmt

/-- The id and the body of a loop. -/
def loop? : IR.Stmt → Option (StmtId × List IR.Stmt)
  | rangeFor i _ _ body _ | while_ i _ _ body => some (i, body)
  | _ => none

mutual

/-- The simple statements inside that are in the body of no loop inside. -/
def direct : IR.Stmt → List IR.Stmt
  | op i o => [op i o]
  | rangeFor .. => []
  | while_ _ condBody _ _ => directAll condBody
  | ifElse _ _ yes no => directAll yes ++ directAll no

def directAll : List IR.Stmt → List IR.Stmt
  | [] => []
  | s :: ss => direct s ++ directAll ss

end

end IR.Stmt

namespace Surface.Stmt

def loopBody? : Surface.Stmt → Option Surface.Stmt
  | forOf _ _ _ body | while_ _ _ body => some body
  | _ => none

def control? : Surface.Stmt → Option LoopControl
  | break_ _ => some .break_
  | continue_ _ => some .continue_
  | _ => none

end Surface.Stmt

namespace Lowering

/-- The statement stands in the part. -/
inductive Part.Has : Part → Surface.Stmt → Prop
  | self {s : Surface.Stmt} : Has (.stmt s) s
  | part {p : Part} {s s' : Surface.Stmt} (hs : s ∈ p.parts) (h : Has (.stmt s) s') : Has p s'
  | loop {s body s' : Surface.Stmt} (hs : s.loopBody? = some body) (h : Has (.stmt body) s') : Has (.stmt s) s'

/-- The statement stands in the part, and in no loop of it. -/
inductive Part.Directly : Part → Surface.Stmt → Prop
  | self {s : Surface.Stmt} : Directly (.stmt s) s
  | part {p : Part} {s s' : Surface.Stmt} (hs : s ∈ p.parts) (h : Directly (.stmt s) s') : Directly p s'

/-- The loop `s` stands in the routine or in one of `K`, and became the loop with this id and body,
spread over threads or not. Every jump for this loop, and not for one inside it, is lowered from a
jump for `s`, and not for a loop inside `s`. -/
structure LoweredFrom (K : Routine → Prop) (r : Routine) (i : StmtId) (spread : Bool)
    (ss : List IR.Stmt) (s body : Surface.Stmt) : Prop where
  loop : s.loopBody? = some body
  stands : ∃ g, (g = r ∨ K g) ∧ (Part.body g.body).Has s
  renders : Renders K (.loop s i spread) (.stmt body) (code ss)
  jumps : ∀ j c, op j (.loopControl c) ∈ directAll ss → ∃ jump, (Part.stmt body).Directly jump ∧ jump.control? = some c

/-- All loops of the effect are lowered from loops of the source. -/
structure Effect.Looped (K : Routine → Prop) (r : Routine) (e : Effect) : Prop where
  inside : ∀ s ∈ e.statements, ∀ i ss, s.loop? = some (i, ss) → ∃ s body, LoweredFrom K r i false ss s body
  spread : ∀ t, e = .task t → ∀ l, t.loop = some l → ∃ s body, LoweredFrom K r l.index true t.body s body

def Effect.direct : Effect → List IR.Stmt
  | .push s => s.direct
  | _ => []

variable {K : Routine → Prop} {A : Around} {p : Part} {es : List Effect} {r : Routine}
  {ss : List IR.Stmt}

theorem mem_direct_code {s : IR.Stmt} : (∃ e ∈ code ss, s ∈ e.direct) ↔ s ∈ directAll ss := by
  induction ss with
  | nil => simp [code, directAll]
  | cons s' ss ih =>
    have hcons : (∃ e ∈ code (s' :: ss), s ∈ e.direct) ↔ s ∈ s'.direct ∨ ∃ e ∈ code ss, s ∈ e.direct := by
      simp [code, Effect.direct]
    rw [hcons, ih, directAll, mem_append]

/-- A jump for a loop around the effects comes from one in the part, and the loop around the part
became a loop. -/
theorem Renders.jump (h : Renders K A p es) {i : StmtId} {c : LoopControl} {e : Effect}
    (he : e ∈ es) (hop : IR.Stmt.op i (.loopControl c) ∈ e.direct) :
    (∃ s i, A.source = some (s, some i)) ∧ ∃ jump, p.Directly jump ∧ jump.control? = some c := by
  induction h generalizing e with
  | nothing => cases he
  | op ho =>
    obtain rfl := mem_singleton.1 he
    cases mem_singleton.1 hop
    cases c <;> cases ho
  | seq _ _ ih ih' =>
    rcases mem_append.1 he with he | he
    · exact ih he hop
    · exact ih' he hop
  | branch _ _ hyes hno =>
    obtain rfl := mem_singleton.1 he
    rcases mem_append.1 hop with hop | hop
    · obtain ⟨e, he, hop⟩ := mem_direct_code.2 hop
      exact hyes he hop
    · obtain ⟨e, he, hop⟩ := mem_direct_code.2 hop
      exact hno he hop
  | call _ _ ih =>
    obtain ⟨⟨s, j, hsource⟩, -⟩ := ih he hop
    cases hsource
  | part hs _ ih =>
    obtain ⟨hsource, jump, hjump, hc⟩ := ih he hop
    exact ⟨hsource, jump, .part hs hjump, hc⟩
  | forOf =>
    obtain rfl := mem_singleton.1 he
    cases hop
  | cut =>
    obtain rfl := mem_singleton.1 he
    cases hop
  | parallelFor =>
    obtain rfl := mem_singleton.1 he
    cases hop
  | unrolled _ ih =>
    obtain ⟨⟨s, j, hsource⟩, -⟩ := ih he hop
    cases hsource
  | while_ _ _ hcond =>
    obtain rfl := mem_singleton.1 he
    obtain ⟨e, he, hop⟩ := mem_direct_code.2 hop
    -- No statement stands in the condition.
    obtain ⟨-, jump, hjump, -⟩ := hcond he hop
    cases hjump with
    | part hs => cases hs
  | break_ hA =>
    obtain rfl := mem_singleton.1 he
    cases mem_singleton.1 hop
    obtain ⟨s, j, hsource, -⟩ := hA
    exact ⟨⟨s, j, hsource⟩, _, .self, rfl⟩
  | continue_ hA =>
    obtain rfl := mem_singleton.1 he
    cases mem_singleton.1 hop
    obtain ⟨s, j, hsource, -⟩ := hA
    exact ⟨⟨s, j, hsource⟩, _, .self, rfl⟩

/-- All of the part stands in the routine or in one of `K`. -/
def Part.Within (K : Routine → Prop) (r : Routine) (p : Part) : Prop :=
  ∃ g, (g = r ∨ K g) ∧ ∀ s, p.Has s → (Part.body g.body).Has s

theorem Part.within_value : Part.value.Within K r := by
  refine ⟨r, .inl rfl, fun s hs => ?_⟩
  cases hs with
  | part hs => cases hs

theorem Part.Within.part (hp : p.Within K r) {s : Surface.Stmt} (hs : s ∈ p.parts) :
    (Part.stmt s).Within K r := by
  obtain ⟨g, hg, hall⟩ := hp
  exact ⟨g, hg, fun s' h => hall s' (.part hs h)⟩

theorem Part.Within.loop {s body : Surface.Stmt} (hp : (Part.stmt s).Within K r)
    (hs : s.loopBody? = some body) : (Part.stmt body).Within K r := by
  obtain ⟨g, hg, hall⟩ := hp
  exact ⟨g, hg, fun s' h => hall s' (.loop hs h)⟩

theorem loweredFrom {s body : Surface.Stmt} {i : StmtId} {spread : Bool}
    (hs : s.loopBody? = some body) (hp : (Part.stmt s).Within K r)
    (h : Renders K (.loop s i spread) (.stmt body) (code ss)) :
    LoweredFrom K r i spread ss s body where
  loop := hs
  stands := by
    obtain ⟨g, hg, hall⟩ := hp
    exact ⟨g, hg, hall s .self⟩
  renders := h
  jumps j c hop := by
    obtain ⟨e, he, hop⟩ := mem_direct_code.2 hop
    exact (h.jump he hop).2

theorem looped_push {s : IR.Stmt} : (Effect.push s).Looped K r ↔
    ∀ s' ∈ s.flatten, ∀ i ss, s'.loop? = some (i, ss) → ∃ s body, LoweredFrom K r i false ss s body :=
  ⟨Effect.Looped.inside, fun h => ⟨h, nofun⟩⟩

theorem looped_code : (∀ e ∈ code ss, e.Looped K r) ↔
    ∀ s' ∈ flattenAll ss, ∀ i ss, s'.loop? = some (i, ss) → ∃ s body, LoweredFrom K r i false ss s body := by
  induction ss with
  | nil => simp [code, flattenAll]
  | cons s ss ih =>
    have hcons : (∀ e ∈ code (s :: ss), e.Looped K r) ↔ (Effect.push s).Looped K r ∧ ∀ e ∈ code ss, e.Looped K r :=
      forall_mem_cons
    rw [hcons, ih, looped_push, flattenAll, forall_mem_append]

theorem looped_op {i : StmtId} {o : Op} : ∀ e ∈ code [.op i o], e.Looped K r := by
  refine forall_mem_singleton.2 (looped_push.2 fun s hs => ?_)
  obtain rfl := mem_singleton.1 hs
  exact nofun

theorem Renders.looped (h : Renders K A p es) (hp : p.Within K r) : ∀ e ∈ es, e.Looped K r := by
  induction h with
  | nothing => exact forall_mem_nil _
  | op => exact looped_op
  | seq _ _ ih ih' => exact forall_mem_append.2 ⟨ih hp, ih' hp⟩
  | branch _ _ hyes hno =>
    refine forall_mem_singleton.2 (looped_push.2 (forall_mem_cons.2 ⟨nofun, forall_mem_append.2 ⟨?_, ?_⟩⟩))
    · exact looped_code.1 (hyes hp)
    · exact looped_code.1 (hno hp)
  | @call _ _ g _ hg _ ih => exact ih ⟨g, .inr hg, fun _ => id⟩
  | part hs _ ih => exact ih (hp.part hs)
  | forOf h ih =>
    refine forall_mem_singleton.2 (looped_push.2 (forall_mem_cons.2 ⟨?_, looped_code.1 (ih (hp.loop rfl))⟩))
    rintro _ _ ⟨⟩
    exact ⟨_, _, loweredFrom rfl hp h⟩
  | cut => exact forall_mem_singleton.2 ⟨nofun, nofun⟩
  | parallelFor _ h hbounds ih =>
    refine forall_mem_singleton.2 ⟨forall_mem_append.2 ⟨?_, ?_⟩, ?_⟩
    · exact looped_code.1 (hbounds Part.within_value)
    · exact looped_code.1 (ih (hp.loop rfl))
    · rintro _ ⟨⟩ _ ⟨⟩
      exact ⟨_, _, loweredFrom rfl hp h⟩
  | unrolled _ ih => exact ih (hp.loop rfl)
  | while_ _ h hcond ih =>
    refine forall_mem_singleton.2 (looped_push.2 (forall_mem_cons.2 ⟨?_, forall_mem_append.2 ⟨?_, ?_⟩⟩))
    · rintro _ _ ⟨⟩
      exact ⟨_, _, loweredFrom rfl hp h⟩
    · exact looped_code.1 (hcond Part.within_value)
    · exact looped_code.1 (ih (hp.loop rfl))
  | break_ | continue_ => exact looped_op

/-! ## 2. Tasks -/

/-- The condition on effects holds of the tasks and of the statements of the open block. -/
structure Layout.Meets (T : Effect → Prop) (l : Layout) : Prop where
  tasks : ∀ t ∈ l.tasks, T (.task t)
  block : ∀ e ∈ code l.block, T e

section

variable {T : Effect → Prop} (hcut : ∀ ss, (∀ e ∈ code ss, T e) → T (.task { body := ss }))
  {l : Layout} (hl : l.Meets T)
include hcut hl

theorem Layout.Meets.apply {e : Effect} (he : T e) : (l.apply e).Meets T := by
  cases e with
  | push s =>
    refine ⟨hl.tasks, ?_⟩
    rw [Layout.apply, code_append]
    exact forall_mem_append.2 ⟨hl.block, forall_mem_singleton.2 he⟩
  | cut =>
    rw [Layout.apply]
    split
    · exact hl
    · exact ⟨forall_mem_append.2 ⟨hl.tasks, forall_mem_singleton.2 (hcut l.block hl.block)⟩, forall_mem_nil _⟩
  | task t => exact ⟨forall_mem_append.2 ⟨hl.tasks, forall_mem_singleton.2 he⟩, hl.block⟩
  | result ty => exact ⟨hl.tasks, hl.block⟩

theorem Layout.Meets.after (hes : ∀ e ∈ es, T e) : (l.after es).Meets T := by
  induction es generalizing l with
  | nil => exact hl
  | cons e es ih =>
    obtain ⟨he, hes⟩ := forall_mem_cons.1 hes
    exact ih (hl.apply hcut he) hes

end

theorem Layout.ret_after {l : Layout} (hes : Proper false false es) : (l.after es).ret = l.ret := by
  induction es generalizing l with
  | nil => rfl
  | cons e es ih =>
    obtain ⟨he, hes⟩ := forall_mem_cons.1 hes
    refine (ih hes).trans ?_
    cases e with
    | cut =>
      rw [apply]
      split <;> rfl
    | result ty => cases he
    | _ => rfl

theorem Layout.after_result (l : Layout) (i : StmtId) (o : Operand) (ty : Ty) :
    l.after (code [.op i (.ret o ty)] ++ [.result ty] ++ [.cut]) =
      ⟨l.tasks ++ [{ body := l.block ++ [.op i (.ret o ty)] }], [], some ty⟩ := by
  show Layout.apply ⟨l.tasks, l.block ++ [.op i (.ret o ty)], some ty⟩ .cut = _
  rw [apply, if_neg (by simp)]

/-- The slots are all allowed, and the routines as said. -/
def OnRoutines (K : Routine → Prop) : Held → Prop
  | .slot _ => True
  | .routine g => K g

/-- The tasks of a kernel are what its body became, with or without a result at the end. Calls go
to routines that the source may call. -/
def Rendered (r : Routine) (scope : Scope) (templates : List (String × Value)) (k : Kernel) :
    Prop :=
  ∃ body tail, Renders (Callable r scope templates) {} (.body r.body) body ∧
    (tail = [] ∨ ∃ i o ty, tail = code [.op i (.ret o ty)] ++ [.result ty]) ∧
    Layout.after {} (body ++ tail ++ [.cut]) = ⟨k.tasks, [], k.ret⟩

/-- How the jumps and the result of a kernel come from its source. -/
structure ControlFlow (r : Routine) (scope : Scope) (templates : List (String × Value))
    (k : Kernel) : Prop where
  rendered : Rendered r scope templates k
  /-- A loop that is spread over threads is lowered from a loop of the source, with its jumps. -/
  parallel : ∀ t ∈ k.tasks, ∀ l, t.loop = some l →
    ∃ s body, LoweredFrom (Callable r scope templates) r l.index true t.body s body
  /-- So is every other loop. -/
  serial : ∀ t ∈ k.tasks, ∀ s ∈ t.statements, ∀ i ss, s.loop? = some (i, ss) →
    ∃ s body, LoweredFrom (Callable r scope templates) r i false ss s body
  /-- All jumps stand in loops. A kernel with a result gives it in the last statement of the last
  task, which is no loop, and nowhere else. -/
  proper : k.ret = none ∧ (∀ t ∈ k.tasks, t.proper) ∨
    ∃ ty i o first stmts, k.ret = some ty ∧ k.tasks = first ++ [{ body := stmts ++ [.op i (.ret o ty)] }] ∧
      (∀ t ∈ first, t.proper) ∧ allProper false false stmts

variable {scope : Scope} {templates : List (String × Value)} {settings : CompilerSettings}
  {k : Kernel}

theorem rendered_lower (h : lower r scope templates settings = .ok k) :
    Rendered r scope templates k := by
  obtain ⟨b, hb⟩ : ∃ b, (kernelOf r scope templates settings).run {} = .ok k b := by
    unfold lower at h
    split at h <;> cases h
    exact ⟨_, ‹_›⟩
  have hclosed : CallClosed (OnRoutines (Callable r scope templates)) := ⟨.inner, .library⟩
  have hscope : ScopeAmong (OnRoutines (Callable r scope templates)) scope := by
    refine ⟨fun p hp x hx => ?_, fun v hv x hx => ?_⟩
    · cases x with
      | slot i => trivial
      | routine g => exact .scope hp hx
    · cases x with
      | slot i => trivial
      | routine g => exact .receiver hv hx
  have htemplates : ∀ p ∈ templates, Among (OnRoutines (Callable r scope templates)) p.2.held := by
    intro p hp x hx
    cases x with
    | slot i => trivial
    | routine g => exact .template hp hx
  obtain ⟨-, htasks, hret, _, ⟨body, tail, rfl, hbody, htail⟩, hlayout⟩ :=
    kernelOf_ok (fun _ => trivial) hscope htemplates (fun _ _ => .written) hclosed hb
  refine ⟨body, tail, hbody, htail, ?_⟩
  have hblock : b.layout.block = [] := by
    rw [hlayout, Layout.after_append]
    exact Layout.block_cut _
  rw [← hlayout, htasks, hret]
  exact congrArg (Layout.mk _ · _) hblock

def countdownSumSource : String :=
  "(n: i32) => \x7b
    for (const i of range(4)) \x7b
      if (i == n) \x7b continue \x7d
      let j = i
      while (j > 0) \x7b
        j -= 1
        for (const k of static(range(2))) \x7b out[i] += k \x7d
        const capped = (x) => \x7b for (const l of range(x)) \x7b if (l > 2) \x7b break \x7d \x7d return x \x7d
        if (capped(j) == n) \x7b break \x7d
      \x7d
    \x7d
    return n
  \x7d"

end Lowering

end ArrayKernel
