import ArrayKernel.Proofs.Lowering.Lockstep
import ArrayKernel.Proofs.Lowering.Steps

/-!
# All of lowering side by side

Lowering in two contexts that differ only in how they expand calls. Captured blocks are in hand
until the statement or the task that takes them in.
-/

namespace ArrayKernel.Lowering

open IR Surface List Option

variable {σ : Site} {I I' : Inliner} {settings : CompilerSettings} {origin : Origin} {scope : Scope}
  {hand : List StmtId} {stack : List (Origin × Span)} {P : Prop} {S : Held → Prop}
  {no yes : List IR.Stmt} {A : Around} {p : Part} {α : Type} {span : Span} {ss : List Surface.Stmt}
  {space : Space} {c : Operand} {e : Expr}

/-! ## 1. Expressions -/

/-- If `P` holds, the routines may be expanded. -/
def Known (S : Held → Prop) (P : Prop) (rs : List Routine) : Prop := P → ∀ r ∈ rs, S (.routine r)

section

variable {rs rs' : List Routine}

theorem Known.left (h : Known S P (rs ++ rs')) : Known S P rs :=
  fun hP => (forall_mem_append.1 (h hP)).1

theorem Known.right (h : Known S P (rs ++ rs')) : Known S P rs' :=
  fun hP => (forall_mem_append.1 (h hP)).2

theorem Known.along {Q : Prop} (h : Known S P rs) : Known S (P ∧ Q) rs := fun hP => h hP.1

end

/-- Below the outermost level, calls do the same both ways, and if `P` holds, the scope has what may
be held. -/
structure Prepared (S : Held → Prop) (stack : List (Origin × Span)) (top : Bool) (I I' : Inliner)
    (P : Prop) (scope : Scope) : Prop where
  top : top = false
  calls : Expands S stack I I'
  scope : P → ScopeAmong S scope

abbrev Site.Prepared (σ : Site) : Inliner → Inliner → Prop → Scope → Prop :=
  Lowering.Prepared σ.held σ.stack σ.top

theorem Prepared.along {top : Bool} {Q : Prop} (h : Prepared S stack top I I' P scope) :
    Prepared S stack top I I' (P ∧ Q) scope :=
  ⟨h.top, h.calls, fun hP => h.scope hP.1⟩

theorem Prepared.into {top : Bool} (h : Prepared S stack top I I' P scope) (inner : Scope) :
    Prepared S stack top I I' (P ∧ ScopeAmong S inner) inner :=
  ⟨h.top, h.calls, And.right⟩

section Calls

variable {name : String} {v : Value} {c : Callee} {path : List String} {f : FunctionValue}

theorem held_method? {l : Lowered} (hl : Among S l.held) (h : method? l name = some (f, v)) :
    S (.routine f.routine) ∧ Among S v.held := by
  unfold method? at h
  split at h
  · split at h <;> cases h
    exact ⟨held_get? hl ‹_› _ (mem_singleton_self _), hl⟩
  · cases h

/-- What is called, and the record that holds it, are among what may be held. -/
def Callee.Among (S : Held → Prop) : Callee → Prop
  | function f receiver => S (.routine f.routine) ∧ ∀ v, receiver = some v → Lowering.Among S v.held
  | intrinsic _ => True

theorem among_ofLibrary? (hS : CallClosed S) (h : Callee.ofLibrary? name = some c) : c.Among S := by
  rcases or_eq_some_iff.1 h with h | ⟨-, h⟩
  · obtain ⟨f, hf, rfl⟩ := map_eq_some_iff.1 h
    exact ⟨hS.library hf, nofun⟩
  · obtain ⟨i, -, rfl⟩ := map_eq_some_iff.1 h
    trivial

theorem among_ofPath? (hS : CallClosed S) (hs : ScopeAmong S scope)
    (h : Callee.ofPath? scope path = some c) : c.Among S := by
  unfold Callee.ofPath? at h
  dsimp only at h
  split at h
  · cases h
    refine ⟨hs.resolve? held_get? ‹_› _ (mem_singleton_self _), fun v hv => ?_⟩
    obtain ⟨hresolve, -⟩ := filter_eq_some_iff.1 hv
    exact hs.resolve? held_get? hresolve
  · split at h
    · cases h
    · exact among_ofLibrary? hS h

theorem among_ofMethod? (hS : CallClosed S) (hs : ScopeAmong S scope)
    (h : Callee.ofMethod? scope name = some c) : c.Among S := by
  unfold Callee.ofMethod? at h
  split at h
  · cases h
    exact ⟨hs.get? ‹_› _ (mem_singleton_self _), nofun⟩
  · exact among_ofLibrary? hS h

theorem held_pathValue? (hs : ScopeAmong S scope) (h : pathValue? scope path = some v) :
    Among S v.held := by
  rcases or_eq_some_iff.1 h with h | ⟨-, h⟩
  · exact hs.resolve? held_get? h
  · obtain ⟨x, -, rfl⟩ := map_eq_some_iff.1 h
    exact among_nil

theorem routine_of_scope (hs : ScopeAmong S scope) {p : String × Value} (hp : p ∈ scope.table)
    (hf : p.2 = .function f) : S (.routine f.routine) := by
  have hheld := hs.table p hp
  rw [hf] at hheld
  exact hheld _ (mem_singleton_self _)

variable {span : Span} {base base' : Lower Lowered} {args args' : Lower (List Arg)}
  (hσ : σ.Prepared I I' P scope)
include hσ

theorem does_inline {args : List Arg} {receiver : Option Value}
    (hf : P → σ.held (.routine f.routine)) (hargs : P → ∀ a ∈ args, Among σ.held a.lowered.held)
    (hreceiver : P → ∀ v, receiver = some v → Among σ.held v.held) :
    Does σ (I f args receiver scope span) (I' f args receiver scope span) P (Among σ.held ·.held) :=
  hσ.calls.calls σ P f args receiver scope span rfl rfl hf hargs hreceiver fun h _ hp _ =>
    routine_of_scope (hσ.scope h) hp

theorem does_apply {args : List Arg} (hc : P → c.Among σ.held)
    (hargs : P → ∀ a ∈ args, Among σ.held a.lowered.held) :
    Does σ (c.apply ⟨settings, origin, I⟩ scope span args)
      (c.apply ⟨settings, origin, I'⟩ scope span args) P (Among σ.held ·.held) := by
  cases c with
  | function f receiver => exact does_inline hσ (fun h => (hc h).1) hargs fun h => (hc h).2
  | intrinsic i => exact .tidy (tidy_builtin hargs)

variable (hbase : Does σ base base' P (Among σ.held ·.held))
  (hargs : Does σ args args' P fun as => ∀ a ∈ as, Among σ.held a.lowered.held)
include hbase hargs

theorem does_callMember {baseSpan : Span} {name : Name} :
    Does σ (callMember ⟨settings, origin, I⟩ scope span baseSpan name base args)
      (callMember ⟨settings, origin, I'⟩ scope span baseSpan name base' args') P (Among σ.held ·.held) := by
  refine hbase.bindWith fun receiver => ?_
  split
  · rename_i hm
    refine hargs.along.bindWith fun as => does_inline hσ.along.along (fun h => (held_method? h.1.2 hm).1) And.right ?_
    rintro h v ⟨⟩
    exact (held_method? h.1.2 hm).2
  · refine hargs.along.bindWith fun as => ?_
    split
    · exact does_apply hσ.along.along (fun h => among_ofMethod? hσ.calls.closed
        (hσ.scope h.1.1) ‹_›) fun h => forall_mem_cons.2 ⟨h.1.2, h.2⟩
    · exact .fail ..

theorem does_call {callee : Expr} (hcallee : Known σ.held P callee.routines) :
    Does σ (call ⟨settings, origin, I⟩ scope span callee base args)
      (call ⟨settings, origin, I'⟩ scope span callee base' args') P (Among σ.held ·.held) := by
  unfold call
  split
  · exact hargs.bindWith fun as => does_inline hσ.along
      (fun h => hcallee h.1 _ (mem_singleton_self _)) And.right fun _ => nofun
  split
  · rename_i c hc
    obtain ⟨path, -, hc⟩ := bind_eq_some_iff.1 hc
    exact hargs.bindWith fun as =>
      does_apply hσ.along (fun h => among_ofPath? hσ.calls.closed (hσ.scope h.1) hc) And.right
  split
  · split
    · exact .fail ..
    · exact does_callMember hσ hbase hargs
  · exact does_callMember hσ hbase hargs
  · split
    · exact .fail ..
    · exact .fail ..
  · exact .fail ..

end Calls

theorem Site.Block.branch (hyes : σ.Block P A p yes) (hno : σ.Block P A p no)
    (i : StmtId) (c : Operand) : σ.Block P A p [.ifElse i c yes no] := by
  intro hP hmade
  obtain ⟨hmade, hmade'⟩ := each_ifElse.1 hmade
  obtain ⟨-, hwritten, hrenders⟩ := hyes hP hmade
  obtain ⟨-, hwritten', hrenders'⟩ := hno hP hmade'
  exact ⟨trivial, each_ifElse.2 ⟨hwritten, hwritten'⟩, .branch hrenders hrenders'⟩

theorem takes_ifElse (hyes : σ.Block P σ.around σ.part yes) (hno : σ.Block P σ.around σ.part no)
    (i : StmtId) :
    Takes σ (i :: (IR.Stmt.idsOf no ++ (IR.Stmt.idsOf yes ++ hand))) (push (.ifElse i c yes no))
      (push (.ifElse i c yes no)) (fun _ => hand) (fun _ => True) P := by
  refine Takes.push ?_ (hyes.branch hno i c)
  rw [IR.Stmt.idsOf_ifElse, cons_append, append_assoc]
  exact (perm_append_comm_assoc ..).cons i

theorem does_select {cond cond' yes yes' no no' : Lower Lowered} {C : Lowered → Prop}
    (htop : σ.top = false) (hcond : Does σ cond cond' P C)
    (hyes : Does σ yes yes' P (Among σ.held ·.held)) (hno : Does σ no no' P (Among σ.held ·.held))
    {condSpan yesSpan noSpan : Span} :
    Does σ (select cond yes no condSpan yesSpan noSpan span)
      (select cond' yes' no' condSpan yesSpan noSpan span) P (Among σ.held ·.held) := by
  refine hcond.bind fun l => (Does.quiet quiet_rvalue).bind fun x => ?_
  dsimp only
  split
  · exact .fail ..
  split
  · split
    · exact hyes
    · exact hno
  refine ⟨fun hand => ?_⟩
  refine (Takes.capture (hyes.andThen fun l => quiet_rvalue.tidy ..) htop).bind ?_
  rintro ⟨yesBody, a, aTy⟩ hyesBody
  refine (Takes.capture (hno.andThen fun l => quiet_rvalue.tidy ..) htop).bind ?_
  rintro ⟨noBody, b, bTy⟩ hnoBody
  refine ((Does.quiet (.typed ..)).takes _).bind fun ty _ =>
    ((Does.tidy (.alloca ..)).takes _).bindWith fun slot _ => ?_
  have hassign (o : Operand) (source : Ty) :
      Tidy σ.held (P ∧ σ.held (.slot slot))
        (do let o ← coerce o source ty span; discard <| emit (.localStore slot [] o)) fun _ => True := by
    refine quiet_coerce.before fun _ => (Tidy.emit _ rfl fun h _ hslot => ?_).discard
    cases hslot
    exact h.2
  have hstart {ss : List IR.Stmt} (h : σ.Block P σ.around σ.part ss) :
      σ.Block (P ∧ σ.held (.slot slot)) σ.around σ.part ss := Site.Keeps.imp h And.left fun _ => id
  -- The block of the first branch is on top of that of the second one when it is extended, and the
  -- other way round.
  refine ((Takes.captureInto (hstart hyesBody) (.tidy (hassign a aTy)) htop).perm (perm_append_comm_assoc ..)).bind ?_
  rintro ⟨yesBody', _⟩ hyesBody'
  refine ((Takes.captureInto (hstart hnoBody) (.tidy (hassign b bTy)) htop).perm (perm_append_comm_assoc ..)).bind ?_
  rintro ⟨noBody', _⟩ hnoBody'
  refine Takes.freshId.bind fun i _ => (takes_ifElse hyesBody' hnoBody' i).bind fun _ _ => (Does.tidy ?_).takes hand
  exact (Quiet.emitValue _ rfl).before fun _ => .of _ fun _ => among_nil

mutual

theorem does_lowerExpr (hσ : σ.Prepared I I' P scope) : (e : Expr) → Known σ.held P e.routines →
    Does σ (lowerExpr ⟨settings, origin, I⟩ scope e) (lowerExpr ⟨settings, origin, I'⟩ scope e) P (Among σ.held ·.held)
  | .int span n, _ => by unfold lowerExpr; exact .tidy quiet_intLiteral.bare
  | .float _ v, _ | .bool _ b, _ => by unfold lowerExpr; exact .of _ fun _ => among_nil
  | .var span name, _ => by unfold lowerExpr; exact .tidy (tidy_named fun h _ hv => (hσ.scope h).get? hv)
  | .this span, _ => by unfold lowerExpr; exact .tidy (tidy_named fun h => (hσ.scope h).receiver)
  | .member span base name, he => by
    unfold lowerExpr
    split
    · rename_i v hv
      obtain ⟨path, -, hv⟩ := bind_eq_some_iff.1 hv
      exact .tidy (tidy_ofValue fun h => held_pathValue? (hσ.scope h) hv)
    · exact (does_lowerExpr hσ base he).andThen fun _ => tidy_member And.right
  | .index span base indices, he => by
    refine (does_lowerExpr hσ base he.left).bindWith fun _ => ?_
    exact (does_lowerIndices hσ indices he.right).along.andThen fun _ => tidy_index (fun h => h.1.2)
  | .call span callee args, he => by
    have hargs := does_lowerArgs hσ args he.right
    -- The base of a member is lowered on its own; any other callee has none.
    cases callee with
    | member mspan base name =>
      exact does_call hσ (does_lowerExpr hσ base he.left) hargs he.left
    | _ => unfold lowerExpr; exact does_call hσ (.of _ fun _ => among_nil) hargs he.left
  | .unary span op operand, he => by
    refine (does_lowerExpr hσ operand he).andThen fun _ => quiet_rvalue.before fun _ => ?_
    exact quiet_unary.before fun _ => .of _ fun _ => among_nil
  | .binary span op lhs rhs, he => by
    refine (does_lowerExpr hσ lhs he.left).bind fun _ => (Does.quiet quiet_rvalue).bind fun _ => ?_
    refine (does_lowerExpr hσ rhs he.right).andThen fun _ => quiet_rvalue.before fun _ => ?_
    exact quiet_binary.before fun _ => .of _ fun _ => among_nil
  | .conditional span cond yes no, he => by
    exact does_select hσ.top (does_lowerExpr hσ cond he.left.left)
      (does_lowerExpr hσ yes he.left.right) (does_lowerExpr hσ no he.right)
  | .array span items, he => by
    exact (does_lowerArgs hσ items he).andThen fun _ => quiet_arrayOf.bare
  | .object _ members, he => by
    exact (does_lowerMembers hσ members he).bindWith fun _ => .of _ And.right
  | .arrow _ r, he => by unfold lowerExpr; exact .of _ fun h => forall_mem_singleton.2 (he h r (mem_singleton_self r))

theorem does_lowerArgs (hσ : σ.Prepared I I' P scope) :
    (es : List Expr) → Known σ.held P (Expr.routinesOf es) →
    Does σ (lowerArgs ⟨settings, origin, I⟩ scope es) (lowerArgs ⟨settings, origin, I'⟩ scope es) P
      fun as => ∀ a ∈ as, Among σ.held a.lowered.held
  | [], _ => by unfold lowerArgs; exact .of _ fun _ => forall_mem_nil _
  | e :: es, he => by
    refine (does_lowerExpr hσ e he.left).bindWith fun _ => ?_
    refine (does_lowerArgs hσ es he.right).along.bindWith fun _ => .of _ fun h => ?_
    exact forall_mem_cons.2 ⟨h.1.2, h.2⟩

theorem does_lowerIndices (hσ : σ.Prepared I I' P scope) :
    (es : List Expr) → Known σ.held P (Expr.routinesOf es) →
    Does σ (lowerIndices ⟨settings, origin, I⟩ scope es) (lowerIndices ⟨settings, origin, I'⟩ scope es) P
  | [], _ => by unfold lowerIndices; exact .pure _
  | e :: es, he => by
    refine (does_lowerExpr hσ e he.left).bind fun _ => (Does.quiet quiet_indexOperands).bind fun _ => ?_
    exact (does_lowerIndices hσ es he.right).bind fun _ => .pure _

theorem does_lowerMembers (hσ : σ.Prepared I I' P scope) :
    (ms : List Member) → Known σ.held P (Member.routinesOf ms) →
    Does σ (lowerMembers ⟨settings, origin, I⟩ scope ms)
      (lowerMembers ⟨settings, origin, I'⟩ scope ms) P (Among σ.held ·.held)
  | [], _ => by unfold lowerMembers; exact .of _ fun _ => among_nil
  | .mk name e :: ms, he => by
    refine (does_lowerExpr hσ e he.left).bindWith fun _ => ?_
    refine (Does.tidy (tidy_memberValue And.right)).bindWith fun _ => ?_
    refine (does_lowerMembers hσ ms he.right).along.along.bindWith fun _ => .of _ fun h => ?_
    exact forall_mem_append.2 ⟨h.1.2, h.2⟩

end

theorem does_lowerCondition (hσ : σ.Prepared I I' P scope) (he : Known σ.held P e.routines) :
    Does σ (lowerCondition ⟨settings, origin, I⟩ scope e) (lowerCondition ⟨settings, origin, I'⟩ scope e) P := by
  refine (does_lowerExpr hσ e he).andThen fun _ => quiet_rvalue.before fun ⟨c, ty⟩ => ?_
  dsimp only
  split
  · exact .of _ fun _ => trivial
  · exact .fail ..

/-! ## 2. Loops -/

/-- The bounds that an iteration space is given by. -/
def Space.bounds : Space → List Expr
  | .range bounds => bounds
  | .grid extents => extents

theorem routines_of_mem {es : List Expr} (he : e ∈ es) : e.routines ⊆ Expr.routinesOf es := by
  induction he with
  | head es => exact subset_append_left ..
  | tail e' _ ih => exact subset_append_of_subset_right _ ih

theorem routines_callOf? {path : String} {args : List Expr}
    (h : Iteration.callOf? e = some (path, args)) : Expr.routinesOf args ⊆ e.routines := by
  unfold Iteration.callOf? at h
  split at h
  · obtain ⟨p, -, ⟨⟩⟩ := map_eq_some_iff.1 h
    exact subset_append_right ..
  · cases h

/-- The functions that are written in the bounds are written in the expression that is iterated
over. -/
theorem quiet_iteration :
    Quiet (Iteration.ofExpr e) fun it => Expr.routinesOf it.space.bounds ⊆ e.routines := by
  have hspace {path : String} {args : List Expr} {space : Lower Space}
      (h : Iteration.spaceOf path args e.span = some space) : Quiet space (·.bounds = args) := by
    unfold Iteration.spaceOf at h
    extract_lets within at h
    have hwithin (name : String) (most expected : Nat) (s : Space) (hs : s.bounds = args) :
        Quiet (within name most expected s) (·.bounds = args) := by
      show Quiet (ite _ _ _) _
      split
      · exact .fail ..
      · exact .of _ hs
    split at h
    · cases h; exact hwithin _ _ _ _ rfl
    · cases h; exact hwithin _ _ _ _ rfl
    · cases h; exact hwithin _ _ _ _ rfl
    · cases h; exact hwithin _ _ _ _ rfl
    · cases h
  have hstatic {name : String} {inner : Expr} {rs : List Routine}
      (h : Iteration.callOf? e = some (name, [inner])) (hrs : rs ⊆ inner.routines) : rs ⊆ e.routines :=
    fun _ hmem => routines_callOf? h (subset_append_left _ _ (hrs hmem))
  unfold Iteration.ofExpr
  extract_lets unsupported finish
  have hfinish (unrolled : Bool) {call? : Option (String × List Expr)}
      (hcall : ∀ path args, call? = some (path, args) → Expr.routinesOf args ⊆ e.routines) :
      Quiet (finish unrolled call?) fun it => Expr.routinesOf it.space.bounds ⊆ e.routines := by
    simp only [finish]
    split
    · rename_i space hfound
      obtain ⟨⟨path, args⟩, hargs, hs⟩ := Option.bind_eq_some_iff.1 hfound
      exact ⟨fun S P => ((hspace hs).tidy S P).bind fun s => .of _ fun h => h.2 ▸ hcall path args hargs⟩
    · exact .fail ..
  split
  · exact hfinish true fun path args hargs => hstatic ‹_› (routines_callOf? hargs)
  · exact hfinish true fun path args hargs => hstatic ‹_› (routines_callOf? hargs)
  · exact hfinish false fun path args hargs => routines_callOf? hargs

section

variable (hspace : Known σ.held P (Expr.routinesOf space.bounds))
include hspace

theorem does_loopBounds (hσ : σ.Prepared I I' P scope) :
    Does σ (loopBounds ⟨settings, origin, I⟩ scope space) (loopBounds ⟨settings, origin, I'⟩ scope space) P := by
  have hbound (e : Expr) (he : e ∈ space.bounds) :
      Does σ (do intOperand (← lowerExpr ⟨settings, origin, I⟩ scope e) e.span)
        (do intOperand (← lowerExpr ⟨settings, origin, I'⟩ scope e) e.span) P :=
    (does_lowerExpr hσ e fun h r hr => hspace h r (routines_of_mem he hr)).andThen fun _ => quiet_intOperand.tidy ..
  unfold loopBounds
  split
  · refine (Does.mapM hbound).bind fun bounds => ?_
    split <;> exact .pure _
  · refine (Does.mapM hbound).bind fun dims => .quiet ?_
    exact (Quiet.foldlM (fun _ _ => quiet_intBinary) _ _).bind fun _ => .pure _

theorem does_staticBounds (hI : Expands σ.held σ.stack I I') (hs : P → ScopeAmong σ.held scope) :
    Does σ (staticBounds ⟨settings, origin, I⟩ scope space) (staticBounds ⟨settings, origin, I'⟩ scope space) P := by
  have hconst (e : Expr) (he : e ∈ space.bounds) :
      Does σ (lowerIntConst ⟨settings, origin, I⟩ scope "static loop bound" e)
        (lowerIntConst ⟨settings, origin, I'⟩ scope "static loop bound" e) P := by
    refine .atTop (.bind (V := (Among σ.held ·.held)) ?_ fun l => ?_)
    · exact does_lowerExpr (σ := { σ with top := false }) ⟨rfl, hI, hs⟩ e fun h r hr =>
        hspace h r (routines_of_mem he hr)
    split
    · split
      · exact .pure _
      · exact .fail ..
    · exact .fail ..
  unfold staticBounds
  split
  · exact (hconst _ (mem_singleton_self _)).bind fun _ => .pure _
  · refine (hconst _ (mem_cons_self ..)).bind fun _ => ?_
    exact (hconst _ (mem_cons_of_mem _ (mem_singleton_self _))).bind fun _ => .pure _
  · exact .pure _
  · exact (Does.mapM hconst).bind fun _ => .pure _

end

section Bodies

variable {span : Span} {binding : Binding} {iter : Expr} {stmt : Surface.Stmt}
  {body body' : Scope → Lower Scope} (hpart : σ.part = .stmt (.forOf span binding iter stmt))
  {it : Iteration} (hit : Known σ.held P (Expr.routinesOf it.space.bounds))
  (hI : Expands σ.held σ.stack I I') (hs : P → ScopeAmong σ.held scope)

include hs in
theorem takes_loopBody {index : StmtId} {kind : LoopKind} {spread t : Bool} {dims : List Operand}
    (hbody : ∀ inner, Does
      ⟨σ.stack, some kind, .loop (.forOf span binding iter stmt) index spread, .stmt stmt, t, σ.held⟩
      (body inner) (body' inner) (P ∧ ScopeAmong σ.held inner) (ScopeAmong σ.held))
    (ht : t = false) :
    Takes σ hand (loopBody kind scope binding it index dims body)
      (loopBody kind scope binding it index dims body') (fun ss => IR.Stmt.idsOf ss ++ hand)
      (fun ss => σ.Block P (.loop (.forOf span binding iter stmt) index spread) (.stmt stmt) ss) P := by
  have hstmts (parts : List Operand) :
      Does ⟨σ.stack, some kind, .loop (.forOf span binding iter stmt) index spread, .stmt stmt, t, σ.held⟩
        (do body (← bindIndex binding parts scope it.span)) (do body' (← bindIndex binding parts scope it.span)) P
        (ScopeAmong σ.held) :=
    Does.bindWith (.tidy (tidy_bindIndex hs)) hbody
  refine (Takes.capture ((Does.quiet quiet_unflatten).bind hstmts).inLoop ht).bind ?_
  rintro ⟨ss, _⟩ hss
  exact .pure ⟨rfl, hss, Site.allows_nil, Site.keeps_nil fun _ => trivial⟩

include hpart hit

include hI hs in
theorem does_unroll
    (hbody : ∀ inner,
      Does { σ with loop := some .static, around := σ.around.copy (.forOf span binding iter stmt), part := .stmt stmt }
        (body inner) (body' inner) (P ∧ ScopeAmong σ.held inner) (ScopeAmong σ.held)) :
    Does σ (unroll ⟨settings, origin, I⟩ scope binding it span body)
      (unroll ⟨settings, origin, I'⟩ scope binding it span body') P := by
  refine (does_staticBounds hit hI hs).bind fun bounds => ?_
  dsimp only
  split
  · exact .fail ..
  · refine .forM (fun flat => (Does.tidy (tidy_bindIndex hs)).bindWith fun inner => ?_) _
    have hcopy : Does { σ with loop := some .static } (body inner)
        (body' inner) (P ∧ ScopeAmong σ.held inner) (ScopeAmong σ.held) :=
      .within (hbody inner) fun es hes => hpart ▸ .unrolled hes
    exact hcopy.inLoop.discard

theorem does_serialFor (hσ : σ.Prepared I I' P scope)
    (hbody : ∀ i inner,
      Does ⟨σ.stack, some .serial, .loop (.forOf span binding iter stmt) i false, .stmt stmt, σ.top,
        σ.held⟩ (body inner) (body' inner) (P ∧ ScopeAmong σ.held inner) (ScopeAmong σ.held)) :
    Does σ (serialFor ⟨settings, origin, I⟩ scope binding it body)
      (serialFor ⟨settings, origin, I'⟩ scope binding it body') P := by
  refine (does_loopBounds hit hσ).bind fun ⟨first, last, dims⟩ => ⟨fun hand => ?_⟩
  refine Takes.freshId.bind fun index _ => (takes_loopBody hσ.scope (hbody index) hσ.top).bind fun ss hss => ?_
  refine Takes.push ?_ fun hP hmade => ?_
  · rw [IR.Stmt.idsOf_rangeFor]
    exact perm_middle
  · obtain ⟨-, hwritten, hrenders⟩ := hss hP (each_rangeFor.1 hmade)
    exact ⟨trivial, each_rangeFor.2 hwritten, hpart ▸ .forOf hrenders⟩

include hI hs in
/-- The block before the loop is closed. A task takes in the statements of the bounds, the index
and the body. -/
theorem does_parallelFor (htop : σ.top = true)
    (hbody : ∀ i inner,
      Does ⟨σ.stack, some .parallel, .loop (.forOf span binding iter stmt) i true, .stmt stmt, false, σ.held⟩
        (body inner) (body' inner) (P ∧ ScopeAmong σ.held inner) (ScopeAmong σ.held)) :
    Does σ (parallelFor ⟨settings, origin, I⟩ scope binding it body)
      (parallelFor ⟨settings, origin, I'⟩ scope binding it body') P := by
  have hall {es : List Effect} : σ.Allows es := fun hf => by simp [htop] at hf
  unfold parallelFor
  have hflush : Does σ flushSerial flushSerial P := by
    refine ⟨fun hand => Lockstep.flushSerial.imp ?_⟩
    rintro _ _ _ ⟨rfl, rfl⟩
    exact ⟨rfl, trivial, hall, fun _ _ => ⟨trivial, forall_mem_singleton.2 nofun, .cut⟩⟩
  refine hflush.bind fun _ => ⟨fun hand => ?_⟩
  have hbounds : Does { σ with part := .value, top := false } (loopBounds ⟨settings, origin, I⟩ scope it.space)
      (loopBounds ⟨settings, origin, I'⟩ scope it.space) P := does_loopBounds hit ⟨rfl, hI, hs⟩
  refine (Takes.capture hbounds rfl).bind ?_
  rintro ⟨prologue, first, last, dims⟩ hprologue
  refine Takes.freshId.bind fun index _ => (takes_loopBody hs (hbody index) rfl).bind fun ss hss => ?_
  refine (@Lockstep.addTask _ _ σ hand ?_).imp ?_
  · simp only [Task.ids, append_assoc, singleton_append]
    exact perm_middle.trans (.trans (.cons index (perm_append_comm_assoc ..)) perm_middle.symm)
  · rintro _ _ _ ⟨rfl, rfl⟩
    refine ⟨rfl, trivial, hall, fun hP hmade => ?_⟩
    obtain ⟨hmade, hmade'⟩ := each_task.1 hmade
    obtain ⟨-, hwritten, hrenders⟩ := hprologue hP hmade
    obtain ⟨-, hwritten', hrenders'⟩ := hss hP hmade'
    exact ⟨trivial, each_task.2 ⟨hwritten, hwritten'⟩, hpart ▸ .parallelFor hrenders hrenders'⟩

end Bodies

/-! ## 3. Statements -/

/-- The loops around a part are of the kind that lowering takes them for. -/
def Around.Fits (A : Around) (kind : Option LoopKind) : Prop :=
  (kind = some .serial → A.Aligned false) ∧ (kind = some .parallel → A.Aligned true)

theorem Around.fits_loop (s : Surface.Stmt) (i : StmtId) (spread : Bool) :
    (Around.loop s i spread).Fits (some (if spread then .parallel else .serial)) := by
  cases spread
  · exact ⟨fun _ => ⟨s, i, rfl, rfl⟩, nofun⟩
  · exact ⟨nofun, fun _ => ⟨s, i, rfl, rfl⟩⟩

theorem Around.fits_function : A.Fits (some .function) := by
  simp [Around.Fits]

theorem does_loopControl (hfit : σ.around.Fits σ.loop) {c : LoopControl}
    (hjump : ∀ i spread, σ.around.Aligned spread → (c = .break_ → spread = false) →
      Renders (fun r => σ.held (.routine r)) σ.around σ.part (code [.op i (.loopControl c)])) :
    Does σ (loopControl c span) (loopControl c span) P := by
  have hemit (spread : Bool) (hA : σ.around.Aligned spread) (hc : c = .break_ → spread = false) :
      Does σ (emit (.loopControl c)) (emit (.loopControl c)) P := by
    refine ⟨fun hand => (Lockstep.emit _).imp ?_⟩
    rintro i _ _ ⟨rfl, rfl⟩
    exact ⟨rfl, trivial, fun _ => ⟨_, rfl⟩, fun _ _ => ⟨trivial, each_op.2 nofun, hjump i spread hA hc⟩⟩
  refine ⟨fun hand => Lockstep.get fun b hb => ?_⟩
  rw [hb.1]
  split
  · exact (hemit false (hfit.1 ‹_›) fun _ => rfl).discard.takes hand
  · exact (hemit true (hfit.2 ‹_›) nofun).discard.takes hand
  all_goals exact (Does.fail ..).takes hand

theorem does_lowerAssign (hσ : σ.Prepared I I' P scope) {op : AssignOp} {place value : Expr}
    (hr : Known σ.held P (place.routines ++ value.routines)) :
    Does σ (lowerAssign ⟨settings, origin, I⟩ scope op place value span)
      (lowerAssign ⟨settings, origin, I'⟩ scope op place value span) P := by
  refine (does_lowerExpr hσ place hr.left).bindWith fun target => ?_
  split
  · refine (does_lowerExpr hσ value hr.right).along.andThen fun rhs => ?_
    split
    · exact tidy_store (fun h => h.1.2)
    · exact (tidy_atomic (fun h => h.1.2)).discard
    · refine quiet_load.before fun _ => quiet_rvalue.before fun _ => ?_
      exact quiet_binary.before fun _ => tidy_store (fun h => h.1.2)
  · exact .fail ..

/-- A loop takes in the statements of its condition, or they are recorded as left out. -/
theorem does_lowerWhile {stmt : Surface.Stmt} {cond cond' : Lower Operand}
    {body body' : Lower Scope} (htop : σ.top = false) (hpart : σ.part = .stmt (.while_ span e stmt))
    (hcond : Does { σ with part := .value } cond cond' P)
    (hbody : ∀ i, Does
      ⟨σ.stack, some .serial, .loop (.while_ span e stmt) i false, .stmt stmt, σ.top, σ.held⟩
      body body' P (ScopeAmong σ.held)) :
    Does σ (lowerWhile cond body) (lowerWhile cond' body') P := by
  refine ⟨fun hand => (Takes.capture hcond htop).bind fun ⟨condBody, c⟩ hcondBody => ?_⟩
  dsimp only
  split
  · exact Takes.leaveOut condBody
  · refine (Takes.captureEach (A := fun i => .loop _ i false) (fun i => (hbody i).inLoop) htop).bind ?_
    rintro ⟨ss, _⟩ hss
    refine Takes.freshId.bind fun i _ => Takes.push ?_ fun hP hmade => ?_
    · rw [IR.Stmt.idsOf_while, cons_append, append_assoc]
      exact (perm_append_comm_assoc ..).cons i
    · obtain ⟨hmade, hmade'⟩ := each_while.1 hmade
      obtain ⟨-, hwritten, hrenders⟩ := hcondBody hP hmade
      obtain ⟨-, hwritten', hrenders'⟩ := hss i hP hmade'
      exact ⟨trivial, each_while.2 ⟨hwritten, hwritten'⟩, hpart ▸ .while_ hrenders hrenders'⟩

theorem does_lowerBranches {yes yes' no no' : Lower Scope} (htop : σ.top = false)
    (hyes : Does σ yes yes' P (ScopeAmong σ.held)) (hno : Does σ no no' P (ScopeAmong σ.held)) :
    Does σ (lowerBranches c yes no) (lowerBranches c yes' no') P := by
  unfold lowerBranches
  split
  · refine .discard (V := ScopeAmong σ.held) ?_
    split
    · exact hyes
    · exact hno
  · refine ⟨fun hand => (Takes.capture hyes htop).bind fun yesBody hyesBody => ?_⟩
    refine (Takes.capture hno htop).bind fun noBody hnoBody => ?_
    exact Takes.freshId.bind fun i _ => takes_ifElse hyesBody hnoBody i

/-- The bounds of an iteration space are known with the expression that it is from. -/
theorem Known.bounds {it : Iteration} {iter : Expr} (h : Known S P iter.routines) :
    Known S (P ∧ Expr.routinesOf it.space.bounds ⊆ iter.routines) (Expr.routinesOf it.space.bounds) :=
  fun hP r hr => h hP.1 r (hP.2 hr)

mutual

theorem does_lowerStmt {σ : Site} {P : Prop} {scope : Scope} (hσ : σ.Prepared I I' P scope)
    (hfit : σ.around.Fits σ.loop) :
    (s : Surface.Stmt) → σ.part = .stmt s → Known σ.held P s.routines →
    Does σ (lowerStmt ⟨settings, origin, I⟩ scope s) (lowerStmt ⟨settings, origin, I'⟩ scope s) P (ScopeAmong σ.held)
  | .decl span kind name none, _, _ => by unfold lowerStmt; exact .fail ..
  | .decl _ kind name (some init), _, hr => by
    refine (does_lowerExpr hσ init hr).andThen fun l => (tidy_bindDecl l And.right).bind fun _ => .of _ fun h => ?_
    exact (hσ.scope h.1.1).insert h.2 _
  | .function span r, _, hr => by
    exact .tidy (tidy_declareFunction hσ.scope fun h => hr h r (mem_singleton_self r))
  | .ifElse _ cond yes none, hpart, hr => by
    have hyes := (does_lowerStmt (σ := { σ with part := .stmt yes }) hσ hfit yes rfl hr.right).part
      (by rw [hpart]; exact mem_cons_self ..)
    refine (does_lowerCondition hσ hr.left).bind fun c => ?_
    exact (does_lowerBranches hσ.top hyes (.of _ hσ.scope)).bind fun _ => .of _ hσ.scope
  | .ifElse _ cond yes (some no), hpart, hr => by
    have hyes := (does_lowerStmt (σ := { σ with part := .stmt yes }) hσ hfit yes rfl hr.left.right).part
      (by rw [hpart]; exact mem_cons_self ..)
    have hno := (does_lowerStmt (σ := { σ with part := .stmt no }) hσ hfit no rfl hr.right).part
      (by rw [hpart]; exact mem_cons_of_mem _ (mem_singleton_self _))
    refine (does_lowerCondition hσ hr.left.left).bind fun c => ?_
    exact (does_lowerBranches hσ.top hyes hno).bind fun _ => .of _ hσ.scope
  | .forOf span binding iter body, hpart, hr => by
    refine (Does.quiet quiet_iteration).bindWith fun it => ?_
    split
    · refine (does_unroll hpart hr.left.bounds hσ.calls hσ.along.scope fun inner => ?_).bind
        fun _ => .of _ hσ.along.scope
      exact does_lowerStmt (σ := { σ with loop := some .static, around := σ.around.copy _, part := .stmt body })
        (hσ.along.into inner) ⟨nofun, nofun⟩ body rfl hr.right.along.along
    · refine (does_serialFor hpart hr.left.bounds hσ.along fun i inner => ?_).bind fun _ => .of _ hσ.along.scope
      exact does_lowerStmt (σ := ⟨σ.stack, some .serial, .loop _ i false, .stmt body, σ.top, σ.held⟩)
        (hσ.along.into inner) (Around.fits_loop _ i false) body rfl hr.right.along.along
  | .while_ span cond body, hpart, hr => by
    refine (does_lowerWhile hσ.top hpart (does_lowerCondition hσ hr.left) fun i => ?_).bind fun _ => .of _ hσ.scope
    exact does_lowerStmt (σ := ⟨σ.stack, some .serial, .loop _ i false, .stmt body, σ.top, σ.held⟩)
      hσ (Around.fits_loop _ i false) body rfl hr.right
  | .break_ span, hpart, _ => by
    exact (does_loopControl hfit fun i spread hA hc => hpart ▸ .break_ (hc rfl ▸ hA)).bind fun _ => .of _ hσ.scope
  | .continue_ span, hpart, _ => by
    exact (does_loopControl hfit fun i spread hA _ => hpart ▸ .continue_ hA).bind fun _ => .of _ hσ.scope
  | .return_ span _, _, _ => by unfold lowerStmt; exact .fail ..
  | .block _ body, hpart, hr => by
    exact (does_lowerStmts hσ hfit body (fun s hs => hpart ▸ hs) hr).bind fun _ => .of _ hσ.scope
  | .assign span op place value, _, hr => by
    exact (does_lowerAssign hσ hr).bind fun _ => .of _ hσ.scope
  | .expr _ e, _, hr => by unfold lowerStmt; exact (does_lowerExpr hσ e hr).bind fun _ => .of _ hσ.scope
  | .empty _, _, _ => by unfold lowerStmt; exact .of _ hσ.scope

theorem does_lowerStmts {σ : Site} {P : Prop} {scope : Scope} (hσ : σ.Prepared I I' P scope)
    (hfit : σ.around.Fits σ.loop) :
    (ss : List Surface.Stmt) → (∀ s ∈ ss, s ∈ σ.part.parts) → Known σ.held P (Stmt.routinesOf ss) →
    Does σ (lowerStmts ⟨settings, origin, I⟩ scope ss) (lowerStmts ⟨settings, origin, I'⟩ scope ss)
      P (ScopeAmong σ.held)
  | [], _, _ => by unfold lowerStmts; exact .of _ hσ.scope
  | s :: ss, hparts, hr => by
    obtain ⟨hmem, hparts⟩ := forall_mem_cons.1 hparts
    have hfirst := does_lowerStmt (σ := { σ with part := .stmt s }) hσ hfit s rfl hr.left
    exact (hfirst.part hmem).bindWith fun inner => does_lowerStmts (hσ.into inner) hfit ss hparts hr.right.along

end

theorem does_lowerBody (hσ : σ.Prepared I I' P scope) (hfit : σ.around.Fits σ.loop)
    (hparts : ∀ s ∈ ss, s ∈ σ.part.parts) (hr : Known σ.held P (Stmt.routinesOf ss)) :
    Does σ (lowerBody ⟨settings, origin, I⟩ scope ss) (lowerBody ⟨settings, origin, I'⟩ scope ss) P
      (Among σ.held ·.held) := by
  induction ss generalizing P scope with
  | nil => exact .of _ fun _ => among_nil
  | cons s ss ih =>
    unfold lowerBody
    split
    · exact .of _ fun _ => among_nil
    · exact .of _ fun _ => among_nil
    · rename_i hcons
      cases hcons
      exact does_lowerExpr hσ _ hr.left
    · rename_i hcons
      cases hcons
      obtain ⟨hmem, hparts⟩ := forall_mem_cons.1 hparts
      refine .bindWith (.part ?_ hmem) fun inner => ih (hσ.into inner) hparts hr.right.along
      exact does_lowerStmt (σ := { σ with part := .stmt s }) hσ hfit s rfl hr.left

/-! ## 4. Functions -/

/-- One call: the arguments are counted, no function is expanded inside its own expansion, and none
where the stack is `full`. Calls in the body go to `next`, and the lowering of the body goes
through `within`. -/
def callWith (settings : CompilerSettings) (globals : Scope) (full : List (Origin × Span) → Bool)
    (within : Lower Lowered → Lower Lowered) (next : Inliner) : Inliner :=
  fun f args receiver caller span => do
    let params := f.routine.params
    let stack := (← get).inlining
    if args.length ≠ params.length then
      failAt span (.arityMismatch f.name params.length args.length)
    else if stack.contains f.identity then failAt span (.recursion f.name)
    else if full stack then failAt span (.inlineDepth settings.maxInlineDepth)
    else
      let scope ← bindArgs (calleeScope globals caller receiver) params args
      let ctx : Context := { settings, origin := f.origin, inline := next }
      mapError (relocateFrom span) <| inFunction f.identity <| inLoop .function <| within <|
        lowerBody ctx scope f.routine.body

variable {globals : Scope}

/-- What bounds the recursion by a number does so by the same checks. -/
theorem inliner_eq {depth : Nat} :
    inliner settings globals depth =
      callWith settings globals (fun _ => depth = 0) id (inliner settings globals (depth - 1)) := by
  funext f args receiver caller span b
  rw [inliner.eq_def, callWith]
  show (ite _ _ _ : Lower Lowered) b = (ite _ _ _ : Lower Lowered) b
  split
  · rfl
  show (ite _ _ _ : Lower Lowered) b = (ite _ _ _ : Lower Lowered) b
  split
  · rfl
  cases depth with
  | zero | succ depth => rfl

section

variable (hS : CallClosed S) (hglobals : ∀ p ∈ globals.table, Among S p.2.held)
include hS hglobals

theorem expands_callWith {full full' : List (Origin × Span) → Bool}
    {within within' : Lower Lowered → Lower Lowered} (hfull : full stack = full' stack)
    (hbody : ∀ f : FunctionValue, f.identity ∉ stack → full stack = false →
      Expands S (f.identity :: stack) I I' ∧ ∀ (σ : Site) (P : Prop) (m m' : Lower Lowered),
        σ.stack = f.identity :: stack → Does σ m m' P (Among σ.held ·.held) →
        Does σ (within m) (within' m') P (Among σ.held ·.held)) :
    Expands S stack (callWith settings globals full within I) (callWith settings globals full' within' I') := by
  refine ⟨hS, ?_⟩
  rintro σ P f args receiver scope span rfl rfl hf hargs hreceiver hscope
  refine ⟨fun hand => Lockstep.get fun b hb => ?_⟩
  -- The first step only reads the stack, which is the given one.
  rw [show b.inlining = σ.stack from hb.2]
  dsimp only
  rw [← hfull]
  refine (Does.atTop ?_).takes hand
  split
  · exact .fail ..
  split
  · exact .fail ..
  split
  · exact .fail ..
  rename_i hcontains hroom
  obtain ⟨hI, hwithin⟩ := hbody f (by simpa using hcontains) (by simpa using hroom)
  have hinner (h : P) : ScopeAmong σ.held (calleeScope globals scope receiver) := by
    refine .calleeScope (fun p hp g hg => ?_) hglobals (hreceiver h)
    rw [hg]
    exact forall_mem_singleton.2 (hscope h p hp g hg)
  refine Does.bindWith (.tidy (tidy_bindArgs hinner hargs)) fun inner =>
    .inCall (fun h => hf h.1) (hwithin _ _ _ _ rfl ?_)
  exact does_lowerBody ⟨rfl, hI, And.right⟩ Around.fits_function
    (fun _ => id) fun h _ hg => hS.inner (hf h.1) hg

theorem expands_inliner (depth : Nat) :
    Expands S stack (inliner settings globals depth) (inliner settings globals depth) := by
  induction depth generalizing stack with
  | zero =>
    rw [inliner_eq]
    exact expands_callWith hS hglobals rfl fun f _ h => by simp at h
  | succ depth ih =>
    rw [inliner_eq]
    exact expands_callWith hS hglobals rfl fun f _ _ => ⟨ih, fun _ _ _ _ _ => id⟩

end

/-! ## 5. Kernels -/

mutual

theorem does_lowerTop {σ : Site} {P : Prop} {scope : Scope} (htop : σ.top = true)
    (hfit : σ.around.Fits σ.loop) (hI : Expands σ.held σ.stack I I')
    (hs : P → ScopeAmong σ.held scope) :
    (s : Surface.Stmt) → σ.part = .stmt s → Known σ.held P s.routines →
    Does σ (lowerTop ⟨settings, origin, I⟩ scope false s)
      (lowerTop ⟨settings, origin, I'⟩ scope false s) P (ScopeAmong σ.held)
  | .forOf span binding iter body, hpart, hr => by
    unfold lowerTop
    refine (Does.quiet quiet_iteration).bindWith fun it => ?_
    have hs {Q : Prop} (h : P ∧ Q) := hs h.1
    split
    · refine (does_unroll hpart hr.left.bounds hI hs fun inner => ?_).bind fun _ => .of _ hs
      exact does_lowerTop (σ := { σ with loop := some .static, around := σ.around.copy _, part := .stmt body }) htop
        ⟨nofun, nofun⟩ hI And.right body rfl hr.right.along.along
    · refine (does_parallelFor hpart hr.left.bounds hI hs htop fun i inner => ?_).bind fun _ => .of _ hs
      exact does_lowerStmt (σ := ⟨σ.stack, some .parallel, .loop _ i true, .stmt body, false, σ.held⟩)
        ⟨rfl, hI, And.right⟩ (Around.fits_loop _ i true) body rfl hr.right.along.along
  | .block _ body, hpart, hr => by
    exact (does_lowerTops htop hfit hI hs body (fun s hs => hpart ▸ hs) hr).bind fun _ => .of _ hs
  | .return_ .., hpart, hr | .decl .., hpart, hr | .function .., hpart, hr | .ifElse .., hpart,
      hr | .while_ .., hpart, hr
  | .break_ _, hpart, hr | .continue_ _, hpart, hr | .assign .., hpart, hr | .expr .., hpart,
      hr | .empty _, hpart, hr => by
    exact .atTop (does_lowerStmt (σ := { σ with top := false }) ⟨rfl, hI, hs⟩ hfit _ hpart hr)

theorem does_lowerTops {σ : Site} {P : Prop} {scope : Scope} (htop : σ.top = true)
    (hfit : σ.around.Fits σ.loop) (hI : Expands σ.held σ.stack I I')
    (hs : P → ScopeAmong σ.held scope) :
    (ss : List Surface.Stmt) → (∀ s ∈ ss, s ∈ σ.part.parts) → Known σ.held P (Stmt.routinesOf ss) →
    Does σ (lowerTops ⟨settings, origin, I⟩ scope false ss)
      (lowerTops ⟨settings, origin, I'⟩ scope false ss) P (ScopeAmong σ.held)
  | [], _, _ => by unfold lowerTops; exact .of _ hs
  | s :: ss, hparts, hr => by
    obtain ⟨hmem, hparts⟩ := forall_mem_cons.1 hparts
    have hfirst := does_lowerTop (σ := { σ with part := .stmt s }) htop hfit hI hs s rfl hr.left
    exact (hfirst.part hmem).bindWith fun inner => does_lowerTops htop hfit hI And.right ss hparts hr.right.along

end

/-- The effects are what the part became, with or without a result at the end. -/
def Ends (σ : Site) (es : List Effect) : Prop :=
  ∃ body tail, es = body ++ tail ∧ Renders (fun r => σ.held (.routine r)) σ.around σ.part body ∧
    (tail = [] ∨ ∃ i o ty, tail = code [.op i (.ret o ty)] ++ [.result ty])

theorem Ends.after {es es' : List Effect}
    (h : Renders (fun r => σ.held (.routine r)) σ.around σ.part es) (h' : Ends σ es') :
    Ends σ (es ++ es') := by
  obtain ⟨body, tail, rfl, hbody, htail⟩ := h'
  exact ⟨es ++ body, tail, (append_assoc ..).symm, h.seq hbody, htail⟩

section

-- All slots may be written to at the outermost level: only the routines are followed.
variable (hslots : ∀ i, σ.held (.slot i)) (hI : Expands σ.held σ.stack I I')

include hslots

theorem Site.Keeps.renders {es : List Effect} {w : Prop} (h : σ.Keeps True es w) :
    w ∧ Renders (fun r => σ.held (.routine r)) σ.around σ.part es := by
  obtain ⟨hw, -, hes⟩ := h trivial fun _ _ i _ _ _ _ _ => hslots i
  exact ⟨hw, hes⟩

theorem Does.ends {β : Type} {m m' : Lower α} {f f' : α → Lower β} {V : α → Prop}
    (hm : Does σ m m' True V)
    (hf : ∀ a, V a → Lockstep σ hand (f a) (f' a) fun _ es left => hand = left ∧ Ends σ es) :
    Lockstep σ hand (m >>= f) (m' >>= f') fun _ es left => hand = left ∧ Ends σ es := by
  refine .bind (hm.takes hand) ?_
  rintro a es _ ⟨rfl, -, -, hkeeps⟩
  obtain ⟨ha, hes⟩ := hkeeps.renders hslots
  exact (hf a ha).imp fun _ _ _ h => ⟨h.1, h.2.after hes⟩

omit hslots in
theorem ends_pure {a : α} :
    Lockstep σ hand (pure a) (pure a) fun _ es left => hand = left ∧ Ends σ es :=
  .pure ⟨rfl, [], [], rfl, .nothing, .inl rfl⟩

include hI

theorem ends_lowerReturn (hs : ScopeAmong σ.held scope) {value : Option Expr}
    (hvalue : ∀ e, value = some e → Known σ.held True e.routines) :
    Lockstep σ hand (lowerReturn ⟨settings, origin, I⟩ scope value span) (lowerReturn
      ⟨settings, origin, I'⟩ scope value span) fun _ es left => hand = left ∧ Ends σ es := by
  cases value with
  | none => exact ends_pure
  | some e =>
    refine Does.ends hslots (.atTop (does_lowerExpr (σ := { σ with top := false }) ⟨rfl, hI, fun _ => hs⟩ e
      (hvalue e rfl))) fun l _ => ?_
    refine Does.ends hslots (.quiet quiet_rvalue) fun ⟨o, ty⟩ _ => ?_
    refine (Lockstep.emit _).bind ?_
    rintro i _ _ ⟨rfl, rfl⟩
    exact fun b _ => ⟨rfl, .ok [.result ty] ⟨rfl, rfl⟩ rfl id ⟨rfl, [], _, rfl, .nothing, .inr ⟨i, o, ty, rfl⟩⟩⟩

variable (htop : σ.top = true) (hfit : σ.around.Fits σ.loop) (hs : ScopeAmong σ.held scope)
include htop hfit hs

theorem ends_lowerTop {s : Surface.Stmt} (hmem : s ∈ σ.part.parts)
    (hr : Known σ.held True s.routines) :
    Lockstep σ hand (lowerTop ⟨settings, origin, I⟩ scope true s)
      (lowerTop ⟨settings, origin, I'⟩ scope true s) fun _ es left => hand = left ∧ Ends σ es := by
  have hstmt : Does σ (lowerTop ⟨settings, origin, I⟩ scope false s)
      (lowerTop ⟨settings, origin, I'⟩ scope false s) True (ScopeAmong σ.held) :=
    .part (does_lowerTop (σ := { σ with part := .stmt s }) htop hfit hI (fun _ => hs) s rfl hr) hmem
  cases s with
  | return_ span value =>
    refine (ends_lowerReturn hslots hI hs ?_).bind ?_
    · rintro e rfl
      exact hr
    · rintro _ es _ ⟨rfl, hes⟩
      exact .pure ⟨rfl, (append_nil es).symm ▸ hes⟩
  | _ =>
    have hends : Lockstep σ hand _ _ _ := hstmt.ends hslots fun a _ => ends_pure (a := a)
    rw [bind_pure, bind_pure] at hends
    exact hends

theorem ends_lowerTops (hparts : ∀ s ∈ ss, s ∈ σ.part.parts)
    (hr : Known σ.held True (Stmt.routinesOf ss)) :
    Lockstep σ hand (lowerTops ⟨settings, origin, I⟩ scope true ss) (lowerTops
      ⟨settings, origin, I'⟩ scope true ss) fun _ es left => hand = left ∧ Ends σ es := by
  induction ss generalizing scope with
  | nil => unfold lowerTops; exact ends_pure
  | cons s ss ih =>
    obtain ⟨hmem, hparts⟩ := forall_mem_cons.1 hparts
    cases ss with
    | nil =>
      refine (ends_lowerTop hslots hI htop hfit hs hmem hr.left).bind ?_
      rintro inner es _ ⟨rfl, hes⟩
      exact .pure ⟨rfl, (append_nil es).symm ▸ hes⟩
    | cons t ts =>
      refine Does.ends hslots (.part ?_ hmem) fun inner hinner => ih hinner hparts hr.right
      exact does_lowerTop (σ := { σ with part := .stmt s }) htop hfit hI (fun _ => hs) s rfl hr.left

end

section

variable {r : Routine} {templates : List (String × Value)} (hslots : ∀ i, S (.slot i))
  (hs : ScopeAmong S scope) (htemplates : ∀ p ∈ templates, Among S p.2.held)
  (hr : Known S True (Stmt.routinesOf r.body))
include hslots hs htemplates hr

theorem ends_kernelVia (hI : Expands S [] I I') :
    Lockstep { part := .body r.body, top := true, held := S } hand (kernelVia I r scope templates settings)
      (kernelVia I' r scope templates settings) fun _ es left =>
        hand = left ∧ ∃ es', Ends { part := .body r.body, top := true, held := S } es' ∧ es = es' ++ [.cut] := by
  refine Lockstep.bind ((Does.tidy (P := True) (tidy_bindParams (fun _ => hs) fun _ => htemplates)).takes hand) ?_
  rintro ⟨params, inner⟩ es _ ⟨rfl, -, -, hkeeps⟩
  obtain ⟨hinner, hes⟩ := hkeeps.renders hslots
  refine (ends_lowerTops (σ := { part := .body r.body, top := true, held := S }) hslots hI rfl
    ⟨nofun, nofun⟩ hinner (fun _ => id) hr).bind ?_
  rintro _ es' _ ⟨rfl, hes'⟩
  refine Lockstep.flushSerial.bind ?_
  rintro _ _ _ ⟨rfl, rfl⟩
  refine .get fun b _ => .pure ⟨rfl, es ++ es', hes'.after hes, ?_⟩
  simp

theorem kernelOf_ok (hS : CallClosed S) {k : Kernel} {b : Builder}
    (h : (kernelOf r scope templates settings).run {} = .ok k b) :
    Accounted [] b ∧ k.tasks = b.tasks.toList ∧ k.ret = b.ret ∧
      ∃ es, Ends { part := .body r.body, top := true, held := S } es ∧ b.layout = Layout.after {} (es ++ [.cut]) := by
  have hkernel : Lockstep _ [] (kernelOf r scope templates settings) (kernelOf r scope templates settings) _ :=
    ends_kernelVia hslots hs htemplates hr (expands_inliner hS (fun p hp => hs.table p (mem_filter.1 hp).1) _)
  have hrun := (hkernel {} ⟨rfl, rfl⟩).2
  rw [show kernelOf r scope templates settings {} = .ok k b from h] at hrun
  cases hrun with
  | ok _ _ layout ids post =>
    obtain ⟨rfl, es, hes, rfl⟩ := post
    -- the last step reads the tasks and the result
    obtain ⟨⟨params, inner⟩, b1, h1, h⟩ := bind_ok h
    obtain ⟨s, b2, h2, h⟩ := bind_ok h
    cases h
    exact ⟨ids accounted_start, rfl, rfl, es, hes, layout⟩

end

end ArrayKernel.Lowering
