import ArrayKernel.Proofs.Shader.Bodies

/-!
# Slots of a shader

Which slots are known when a statement is written depends on the statements before it alone
(`Advances`). So a slot that is not shared has its declaration among the lines before.
-/

namespace ArrayKernel.Shader

open IR List Stmt

variable {t : Target} {e e' e1 : Emitter} {α β : Type} {ss ts : List Stmt} {id : StmtId} {ty : Ty}
  {w : Word} {kind : AtomicKind} {value : String} {s : Stmt} {settings : CompilerSettings}
  {task : Task}

/-! ## 1. Steps that leave slots alone -/

def declareSlot (slots : Std.HashMap StmtId Slot) : Stmt → Std.HashMap StmtId Slot
  | .op i (.alloca ty hint) => if slots.contains i then slots else slots.insert i (.variable (varName i hint) ty)
  | _ => slots

/-- A step adds lines at the end and enters the slots that the statements make. -/
structure Advances (t : Target) (ss : List Stmt) (e e' : Emitter) : Prop where
  lines : e.lines.toList <+: e'.lines.toList
  slots : e'.slots = ss.foldl declareSlot e.slots
  bound : Bound t e → Bound t e'

namespace Advances

theorem refl (e : Emitter) : Advances t [] e e := ⟨prefix_refl _, rfl, id⟩

theorem trans (h : Advances t ss e e1) (h' : Advances t ts e1 e') : Advances t (ss ++ ts) e e' where
  lines := h.lines.trans h'.lines
  slots := by rw [h'.slots, h.slots, foldl_append]
  bound hb := h'.bound (h.bound hb)

theorem same (hlines : e'.lines = e.lines) (hslots : e'.slots = e.slots)
    (hbindings : e'.bindings = e.bindings) : Advances t [] e e' where
  lines := hlines ▸ prefix_refl _
  slots := hslots
  bound h := ⟨by simpa [Emitter.kinds, hbindings] using h.nodup, by simpa [Emitter.kinds, hbindings] using h.bindings⟩

theorem from_same (h : Advances t ss e1 e') (hlines : e1.lines = e.lines)
    (hslots : e1.slots = e.slots) (hbindings : e1.bindings = e.bindings) : Advances t ss e e' :=
  (same hlines hslots hbindings).trans h

end Advances

/-- Fields are laid out alike for both targets, whatever they are called and declared as. -/
def SameLayout (t t' : Target) : Prop :=
  ∀ id, (t.kernel.field? id).map (fun f => (f.strides, f.elem.size)) = (t'.kernel.field? id).map
    fun f => (f.strides, f.elem.size)

/-- The step enters no slot, and if `B` holds, it does not depend on how fields are called and
declared. -/
structure Quiet (B : Prop) (m : Emit α) : Prop where
  advances (t : Target) (e : Emitter) : Advances t [] e (m t e).2
  blind : B → ∀ t t' e, SameLayout t t' → m t e = m t' e

variable {B : Prop} {indices : List Operand} {m : Emit α} {access : LocalAccess} {f : α → Emit β}
  {slot : StmtId}

theorem Quiet.bind (hm : Quiet B m) (hf : ∀ x, Quiet B (f x)) : Quiet B (m >>= f) where
  advances t e := (hm.advances t e).trans ((hf (m t e).1).advances t (m t e).2)
  blind hB t t' e h := by rw [run_bind, run_bind, hm.blind hB t t' e h, (hf _).blind hB t t' _ h]

theorem Quiet.imp {B' : Prop} (hm : Quiet B m) (h : B' → B) : Quiet B' m :=
  ⟨hm.advances, fun hB => hm.blind (h hB)⟩

theorem quiet_of_state (h : ∀ t e, (m t e).2 = e) (hblind : B → ∀ t t' e, m t e = m t' e) :
    Quiet B m where
  advances t e := by
    rw [h t e]
    exact .refl e
  blind hB t t' e _ := hblind hB t t' e

theorem quiet_read {f : Target → Emit β} (hf : ∀ t, Quiet B (f t))
    (hsame : B → ∀ t t', SameLayout t t' → f t = f t') : Quiet B (read >>= f) where
  advances t e := (hf t).advances t e
  blind hB t t' e h := by
    rw [run_bind, run_bind, run_read, run_read, hsame hB t t' h]
    exact (hf t').blind hB t t' e h

theorem quiet_pure (x : α) : Quiet B (pure x : Emit α) :=
  quiet_of_state (fun _ _ => rfl) fun _ _ _ _ => rfl

theorem quiet_get : Quiet B (get : Emit Emitter) :=
  quiet_of_state (fun _ _ => rfl) fun _ _ _ _ => rfl

theorem quiet_operand (o : Operand) : Quiet B (operand o) :=
  quiet_of_state (fun t e => operand_state t e o) fun _ _ _ _ => by cases o <;> rfl

theorem quiet_operandTy {o : Operand} : Quiet B (operandTy o) :=
  quiet_of_state (fun t e => operandTy_state t e o) fun _ _ _ _ => by cases o <;> rfl

theorem quiet_indexText (o : Operand) : Quiet B (indexText o) := by
  refine quiet_of_state (fun t e => indexText_state t e o) fun _ _ _ _ => ?_
  match o with
  | .stmt _ | .const (.f32 _) | .const (.u32 _) => rfl
  | .const (.i32 v) =>
    rw [indexText]
    split <;> rfl

theorem quiet_mapM (hf : ∀ x, Quiet B (f x)) (xs : List α) : Quiet B (xs.mapM f) := by
  induction xs with
  | nil => exact quiet_pure []
  | cons x xs ih =>
    rw [mapM_cons]
    exact (hf x).bind fun _ => ih.bind fun _ => quiet_pure _

theorem quiet_line {text : String} : Quiet B (line text) where
  advances t e := ⟨⟨_, (lines_line text t e).symm⟩, rfl, fun h => ⟨h.nodup, h.bindings⟩⟩
  blind _ _ _ _ _ := rfl

theorem quiet_lines {texts : List String} : Quiet B (texts.forM line) := by
  induction texts with
  | nil => exact quiet_pure ()
  | cons x xs ih => exact quiet_line.bind fun _ => ih

theorem quiet_bindValue {expr : String} : Quiet B (bindValue id ty expr) :=
  quiet_line.bind fun _ => ⟨fun _ _ => .same rfl rfl rfl, fun _ _ _ _ _ => rfl⟩

theorem quiet_resource (kind : ResourceKind) (h : B → ∀ f, kind ≠ .field f) :
    Quiet B (resource kind) where
  advances t e := by
    rcases resource_cases with ⟨b, -, -, heq⟩ | ⟨-, heq⟩
    · rw [heq]
      exact .refl e
    · have hlines : (resource kind t e).2.lines = e.lines := by rw [heq]
      have hslots : (resource kind t e).2.slots = e.slots := by rw [heq]
      exact ⟨⟨[], (append_nil _).trans (congrArg Array.toList hlines.symm)⟩, hslots, (adds_resource t e kind).bound⟩
  blind hB t t' e _ := by
    have hname : variableOf t kind = variableOf t' kind := by
      cases kind with
      | field f => exact absurd rfl (h hB f)
      | _ => rfl
    simp only [resource, run_bind, run_get]
    cases e.bindings.find? (·.kind = kind) with
    | some b => rfl
    | none => simp only [run_bind, run_read, hname]; rfl

theorem quiet_sharedWords {a : Address} : Quiet B (sharedWords a) :=
  (quiet_resource .shared fun _ => nofun).bind fun _ => quiet_pure _

theorem quiet_fieldWords? {ptr : StmtId} : Quiet False (fieldWords? ptr) := by
  refine quiet_get.bind fun e => ?_
  split
  · exact quiet_pure none
  · exact (quiet_resource _ nofun).bind fun _ => quiet_read (fun _ => quiet_pure _) nofun

theorem quiet_fieldAddress {field : Nat} {offset : Operand} :
    Quiet B (fieldAddress id field indices offset) := by
  refine quiet_read (fun t => ?_) fun _ t t' h => ?_
  · split
    refine (quiet_mapM (fun _ => (quiet_operand _).bind fun _ => quiet_pure _) _).bind fun _ => ?_
    refine (quiet_operand offset).bind fun _ => ?_
    have henter (a : Address) : Quiet B (modify fun e => { e with ptrs := e.ptrs.insert id (field, a) } : Emit Unit) :=
      ⟨fun _ _ => .same rfl rfl rfl, fun _ _ _ _ _ => rfl⟩
    dsimp only
    split
    · exact quiet_line.bind fun _ => (quiet_pure _).bind fun a => henter a
    · exact (quiet_pure _).bind fun a => henter a
  · have hfield := h field
    generalize t.kernel.field? field = x at hfield ⊢
    generalize t'.kernel.field? field = y at hfield ⊢
    cases x <;> cases y
    · rfl
    · cases hfield
    · cases hfield
    · obtain ⟨hstrides, hsize⟩ := Prod.mk.inj (Option.some.inj hfield)
      simp only [hstrides, hsize]

theorem localAccess_state :
    (localAccess slot indices t e).2 = e := by
  simp only [localAccess, run_bind, mapM_state t e (indexText_state t e) indices, run_get]
  generalize (List.mapM indexText indices t e).1 = texts
  cases e.slots[slot]? with
  | none => rfl
  | some x =>
    cases x with
    | shared offset ty => rfl
    | «variable» name ty =>
      dsimp only
      split <;> rfl

theorem quiet_localAccess : Quiet B (localAccess slot indices) := by
  refine (quiet_mapM quiet_indexText indices).bind fun texts => quiet_get.bind fun e => ?_
  split
  · exact quiet_pure _
  · split <;> exact quiet_pure _
  · exact quiet_pure _

theorem quiet_readLocal : Quiet B (readLocal access ty) := by
  cases access with
  | words a => exact quiet_sharedWords.bind fun _ => quiet_pure _
  | _ => exact quiet_pure _

theorem quiet_writeLocal : Quiet B (writeLocal access ty value) := by
  cases access with
  | words a => exact quiet_sharedWords.bind fun _ => quiet_pure _
  | _ => exact quiet_pure _

theorem quiet_indented {m : Emit Unit} (h : Quiet B m) : Quiet B (indented m) :=
  Quiet.bind ⟨fun _ _ => .same rfl rfl rfl, fun _ _ _ _ _ => rfl⟩ fun _ => h.bind fun _ =>
    ⟨fun _ _ => .same rfl rfl rfl, fun _ _ _ _ _ => rfl⟩

theorem quiet_exchangeLoop {s : Scalar} : Quiet B (exchangeLoop id w kind value s) := by
  refine quiet_line.bind fun _ => quiet_line.bind fun _ => ?_
  refine (quiet_indented ?_).bind fun _ => quiet_line
  exact quiet_line.bind fun _ => quiet_line.bind fun _ => quiet_line.bind fun _ => quiet_line

theorem quiet_atomicWord : Quiet B (atomicWord id w kind value ty) := by
  rw [atomicWord]
  split
  · exact quiet_bindValue.bind fun _ => quiet_line
  · split
    · exact quiet_bindValue
    · exact quiet_exchangeLoop.bind fun _ => quiet_bindValue

theorem quiet_emitAtomic {target : AtomicTarget} {value : Operand} :
    Quiet ((Op.atomic target kind value ty).ptr? = none) (emitAtomic id target kind value ty) := by
  refine (quiet_operand value).bind fun v => ?_
  -- a variable is read and written, whichever way it is reached
  have hvariable : ∀ access : LocalAccess, Quiet True (do
      bindValue id ty (← readLocal access ty)
      (← writeLocal access ty (combine kind (valueName id) v)).forM line) := fun access =>
    quiet_readLocal.bind fun _ => quiet_bindValue.bind fun _ =>
      quiet_writeLocal.bind fun _ => quiet_lines
  cases target with
  | global f p =>
    refine .imp (quiet_fieldWords?.bind fun words => ?_) nofun
    cases words with
    | none => exact quiet_pure ()
    | some word => exact quiet_atomicWord
  | «local» slot indices =>
    refine quiet_localAccess.bind fun access => ?_
    cases access with
    | words a => exact quiet_sharedWords.bind fun _ => quiet_atomicWord
    | expr text => exact (hvariable (.expr text)).imp fun _ => trivial
    | row name cols r => exact (hvariable (.row name cols r)).imp fun _ => trivial

theorem quiet_emitTexture {texture : Nat} {op : TextureOp} {coords : Operand}
    {value : Option Operand} : Quiet B (emitTexture id texture op coords value ty) := by
  refine (quiet_operand coords).bind fun _ => ?_
  cases op with
  | load => exact (quiet_resource (.texture texture) fun _ => nofun).bind fun _ => quiet_bindValue
  | sample =>
    refine (quiet_resource (.texture texture) fun _ => nofun).bind fun _ => ?_
    exact (quiet_resource (.sampler texture) fun _ => nofun).bind fun _ => quiet_bindValue
  | store =>
    refine (quiet_resource (.storageTexture texture) fun _ => nofun).bind fun _ => ?_
    cases value with
    | none => exact (quiet_pure _).bind fun _ => quiet_line
    | some v => exact (quiet_operand v).bind fun _ => quiet_line

theorem quiet_emitOp (id : StmtId) {o : Op} (h : ∀ ty hint, o ≠ .alloca ty hint) :
    Quiet (o.ptr? = none) (emitOp id o) := by
  cases o with
  | alloca ty hint => exact absurd rfl (h ty hint)
  | localLoad slot indices ty =>
    exact quiet_localAccess.bind fun access => quiet_readLocal.bind fun _ => quiet_bindValue
  | localStore slot indices value =>
    exact quiet_localAccess.bind fun access => quiet_operandTy.bind fun ty =>
      (quiet_operand value).bind fun _ => quiet_writeLocal.bind fun _ => quiet_lines
  | globalPtr field indices offset => exact quiet_fieldAddress
  | globalLoad ptr ty =>
    refine .imp (quiet_fieldWords?.bind fun words => ?_) nofun
    cases words <;> exact quiet_bindValue
  | globalStore ptr value =>
    refine .imp (quiet_fieldWords?.bind fun words => ?_) nofun
    cases words with
    | none => exact quiet_pure ()
    | some word => exact quiet_operandTy.bind fun _ => (quiet_operand value).bind fun _ => quiet_lines
  | binary op lhs rhs operandTy ty =>
    refine (quiet_operand lhs).bind fun _ => (quiet_operand rhs).bind fun _ => ?_
    split
    · exact .bind ⟨fun _ _ => .same rfl rfl rfl, fun _ _ _ _ _ => rfl⟩ fun _ => quiet_bindValue
    · exact quiet_bindValue
  | unary op x ty => exact (quiet_operand x).bind fun _ => quiet_operandTy.bind fun _ => quiet_bindValue
  | compose parts ty => exact (quiet_mapM quiet_operand parts).bind fun _ => quiet_bindValue
  | extract value indices ty =>
    refine quiet_operandTy.bind fun _ => (quiet_operand value).bind fun _ => ?_
    refine (quiet_mapM quiet_indexText indices).bind fun _ => ?_
    split <;> exact quiet_bindValue
  | loopControl c => cases c <;> exact quiet_line
  | atomic target kind value ty => exact quiet_emitAtomic
  | call intrinsic args argTys ty => exact (quiet_mapM quiet_operand args).bind fun _ => quiet_bindValue
  | texture x op coords value ty => exact quiet_emitTexture
  | ret value ty =>
    exact (quiet_resource .rets fun _ => nofun).bind fun _ => (quiet_operand value).bind fun _ => quiet_lines
  | random ty => exact .bind ⟨fun _ _ => .same rfl rfl rfl, fun _ _ _ _ _ => rfl⟩ fun _ => quiet_bindValue
  | argLoad index ty => exact (quiet_resource .args fun _ => nofun).bind fun _ => quiet_bindValue

/-! ## 2. Statements and blocks -/

theorem Advances.skip (h : Advances t ss e e') (hs : ∀ m, declareSlot m s = m) :
    Advances t (s :: ss) e e' :=
  { h with slots := by rw [h.slots, foldl_cons, hs] }

def slotLine (id : StmtId) (ty : Ty) (hint : String) : String :=
  s!"var {varName id hint}: {ty.shaderText};"

theorem emitOp_alloca (t : Target) (e : Emitter) (id : StmtId) (ty : Ty) (hint : String) :
    (emitOp id (.alloca ty hint) t e).2 = if e.slots.contains id then e else
      { (line (slotLine id ty hint) t e).2 with slots := e.slots.insert id (.variable (varName id hint) ty) } := by
  show ((if (!e.slots.contains id) = true then _ else pure () : Emit Unit) t e).2 = _
  by_cases h : e.slots.contains id
  · rw [if_pos h, if_neg (by rw [h]; decide)]
    rfl
  · rw [if_neg h, if_pos (by rw [eq_false_of_ne_true h]; rfl)]
    rfl

theorem advances_op {o : Op} : Advances t [.op id o] e (emitOp id o t e).2 := by
  by_cases h : ∃ ty hint, o = .alloca ty hint
  · obtain ⟨ty, hint, rfl⟩ := h
    rw [emitOp_alloca]
    by_cases hc : e.slots.contains id
    · rw [if_pos hc]
      refine ⟨prefix_refl _, ?_, fun hb => hb⟩
      show e.slots = if e.slots.contains id then _ else _
      rw [if_pos hc]
    · rw [if_neg hc]
      refine ⟨((quiet_line (B := True)).advances t e).lines, ?_, fun hb => ⟨hb.nodup, hb.bindings⟩⟩
      show _ = if e.slots.contains id then _ else _
      rw [if_neg hc]
  · have hquiet := (quiet_emitOp id fun ty hint ho => h ⟨ty, hint, ho⟩).advances t e
    refine hquiet.skip fun m => ?_
    cases o with
    | alloca ty hint => exact absurd ⟨ty, hint, rfl⟩ h
    | _ => rfl

section Blocks

variable (t e)

theorem advances_opened (text : String) : Advances t [] e (opened text t e) :=
  ((quiet_line (B := True)).advances t e).trans (.same rfl rfl rfl)

theorem advances_closed : Advances t [] e (closed t e) :=
  ((quiet_line (B := True)).advances t { e with depth := e.depth - 1 }).from_same rfl rfl rfl

theorem advances_insideFor (id : StmtId) (first last : Operand) (hint : String) :
    Advances t [] e (insideFor id first last hint t e) :=
  (advances_opened t (declareIndex id hint t e).2 _).from_same rfl rfl rfl

theorem advances_tested (cond : Operand) : Advances t [] e (tested cond t e) :=
  (quiet_line (B := True)).advances t e

theorem advances_insideIf (cond : Operand) : Advances t [] e (insideIf cond t e) :=
  advances_opened t e _

theorem advances_insideElse : Advances t [] e (insideElse t e) :=
  (advances_opened t { e with depth := e.depth - 1 } _).from_same rfl rfl rfl

end Blocks

mutual

theorem advances_stmt (t : Target) (e : Emitter) (s : Stmt) :
    Advances t s.flatten e (emitStmt s t e).2 := by
  cases s with
  | op id o =>
    exact advances_op
  | rangeFor id first last body hint =>
    rw [emitStmt_rangeFor]
    have hbody := (advances_insideFor t e id first last hint).trans (advances_block t _ body)
    have h := hbody.trans (advances_closed t _)
    rw [append_nil] at h
    exact h.skip fun _ => rfl
  | while_ id condBody cond body =>
    rw [emitStmt_while]
    have htest := ((advances_opened t e "loop \x7b").trans (advances_block t _ condBody)).trans
      (advances_tested t _ cond)
    have h := (htest.trans (advances_block t _ body)).trans (advances_closed t _)
    rw [append_nil, append_nil] at h
    exact h.skip fun _ => rfl
  | ifElse id cond yes no =>
    have hyes := (advances_insideIf t e cond).trans (advances_block t _ yes)
    cases no with
    | nil =>
      rw [emitStmt_if]
      exact (hyes.trans (advances_closed t _)).skip fun _ => rfl
    | cons x no =>
      rw [emitStmt_ifElse]
      have h := ((hyes.trans (advances_insideElse t _)).trans (advances_block t _ (x :: no))).trans
        (advances_closed t _)
      rw [append_nil, append_nil] at h
      exact h.skip fun _ => rfl

theorem advances_block (t : Target) (e : Emitter) (ss : List Stmt) :
    Advances t (flattenAll ss) e (emitBlock ss t e).2 := by
  cases ss with
  | nil => exact .refl e
  | cons s ss =>
    exact (advances_stmt t e s).trans (advances_block t _ ss)

end

theorem advances_inner (h : (ts, e1) ∈ inner t e s) (hts : ts ≠ []) :
    (∀ m, declareSlot m s = m) ∧ ∃ before after, s.flatten = s :: (before ++ flattenAll ts ++ after)
      ∧ Advances t before e e1 ∧ Advances t after (emitBlock ts t e1).2 (emitStmt s t e).2 := by
  cases s with
  | op id o => cases h
  | rangeFor id first last body hint =>
    obtain ⟨rfl, rfl⟩ := Prod.mk.inj (mem_singleton.1 h)
    refine ⟨fun _ => rfl, [], [], ?_, advances_insideFor t e id first last hint, ?_⟩
    · rw [append_nil]
      rfl
    · rw [emitStmt_rangeFor]
      exact advances_closed t _
  | while_ id condBody cond body =>
    refine ⟨fun _ => rfl, ?_⟩
    rw [emitStmt_while]
    rcases mem_cons.1 h with h | h
    · obtain ⟨rfl, rfl⟩ := Prod.mk.inj h
      refine ⟨[], flattenAll body, rfl, advances_opened t e _, ?_⟩
      have htest := advances_tested t (emitBlock ts t (opened "loop \x7b" t e)).2 cond
      have hrest := (htest.trans (advances_block t _ body)).trans (advances_closed t _)
      rw [append_nil] at hrest
      exact hrest
    · obtain ⟨rfl, rfl⟩ := Prod.mk.inj (mem_singleton.1 h)
      refine ⟨flattenAll condBody, [], ?_, ?_, advances_closed t _⟩
      · rw [append_nil]
        rfl
      · have hbefore := ((advances_opened t e "loop \x7b").trans
          (advances_block t _ condBody)).trans (advances_tested t _ cond)
        rw [append_nil] at hbefore
        exact hbefore
  | ifElse id cond yes no =>
    refine ⟨fun _ => rfl, ?_⟩
    rcases mem_cons.1 h with h | h
    · obtain ⟨rfl, rfl⟩ := Prod.mk.inj h
      refine ⟨[], flattenAll no, rfl, advances_insideIf t e cond, ?_⟩
      cases no with
      | nil =>
        rw [emitStmt_if]
        exact advances_closed t _
      | cons x no =>
        rw [emitStmt_ifElse]
        have helse := advances_insideElse t (emitBlock ts t (insideIf cond t e)).2
        have hrest := (helse.trans (advances_block t _ (x :: no))).trans (advances_closed t _)
        rw [append_nil] at hrest
        exact hrest
    · obtain ⟨rfl, rfl⟩ := Prod.mk.inj (mem_singleton.1 h)
      -- without statements the second branch is not written at all
      cases ts with
      | nil => exact absurd rfl hts
      | cons x no =>
        rw [emitStmt_ifElse]
        refine ⟨flattenAll yes, [], ?_, ?_, advances_closed t _⟩
        · rw [append_nil]
          rfl
        · have hbefore := ((advances_insideIf t e cond).trans (advances_block t _ yes)).trans (advances_insideElse t _)
          rw [append_nil] at hbefore
          exact hbefore

/-- A statement is written after those before it and before those after it, whatever the blocks
around it. -/
theorem Visits.advances (h : Visits t ss e s e') :
    ∃ before after, flattenAll ss = before ++ s.flatten ++ after ∧ Advances t before e e'
      ∧ Advances t after (emitStmt s t e').2 (emitBlock ss t e).2 := by
  induction h with
  | @here s ss e =>
    exact ⟨[], flattenAll ss, rfl, .refl e, advances_block t _ ss⟩
  | @after s x ss e e' _ ih =>
    obtain ⟨before, after, hsplit, hbefore, hafter⟩ := ih
    refine ⟨s.flatten ++ before, after, ?_, (advances_stmt t e s).trans hbefore, ?_⟩
    · rw [flattenAll, hsplit]
      simp only [append_assoc]
    · rw [emitBlock_cons]
      exact hafter
  | @inside s x ss ts e e1 e' hmem hv ih =>
    obtain ⟨before, after, hsplit, hbefore, hafter⟩ := ih
    have hts : ts ≠ [] := by
      rintro rfl
      cases hv
    obtain ⟨hs, outer, rest, hflat, houter, hrest⟩ := advances_inner hmem hts
    refine ⟨s :: (outer ++ before), after ++ rest ++ flattenAll ss, ?_, (houter.trans hbefore).skip hs, ?_⟩
    · rw [flattenAll, hflat, hsplit]
      simp only [append_assoc, cons_append]
    · rw [emitBlock_cons]
      exact (hafter.trans hrest).trans (advances_block t _ ss)

/-! ## 3. Tasks -/

theorem advances_seeded (t : Target) (task : Task) :
    Advances t [] { slots := initialSlots t.kernel } (seeded t task) := by
  have hquiet : Quiet False (emitSeed task) := by
    rw [emitSeed]
    split
    · refine .bind ⟨fun _ _ => .same rfl rfl rfl, fun _ _ _ _ _ => rfl⟩ fun _ => ?_
      exact (quiet_resource .args nofun).bind fun _ => quiet_read (fun _ => quiet_line) nofun
    · exact quiet_pure ()
  exact hquiet.advances t _

theorem advances_insideParallel (settings : CompilerSettings) (loop : ParallelLoop) (t : Target) :
    Advances t [] e (insideParallel settings loop t e) :=
  (advances_opened t (declareIndex loop.index loop.hint t e).2 _).from_same rfl rfl rfl

theorem Visits.advances_task {b : List Stmt × Emitter} (hb : b ∈ taskBlocks t settings task)
    (h : Visits t b.1 b.2 s e) : ∃ before after, task.statements = before ++ s.flatten ++ after
      ∧ Advances t before { slots := initialSlots t.kernel } e
      ∧ Advances t after (emitStmt s t e).2 (finalState t settings task) := by
  obtain ⟨before, after, hsplit, hbefore, hafter⟩ := h.advances
  have hseed := advances_seeded t task
  obtain ⟨loop, body⟩ := task
  cases loop with
  | none =>
    cases mem_singleton.1 hb
    exact ⟨before, after, hsplit, hseed.trans hbefore, hafter⟩
  | some loop =>
    rcases mem_cons.1 hb with rfl | hb
    · -- a statement of the bounds
      refine ⟨before, after ++ flattenAll body, ?_, hseed.trans hbefore, ?_⟩
      · show flattenAll loop.prologue ++ flattenAll body = _
        rw [hsplit, append_assoc]
      · have hrest := (((hafter.trans (advances_insideParallel settings loop t)).trans (advances_block t _ body)).trans
          (advances_closed t _))
        rw [append_nil, append_nil] at hrest
        exact hrest
    · -- a statement of the body
      cases mem_singleton.1 hb
      have hpro := (hseed.trans (advances_block t _ loop.prologue)).trans (advances_insideParallel settings loop t)
      rw [append_nil] at hpro
      refine ⟨flattenAll loop.prologue ++ before, after, ?_, hpro.trans hbefore, ?_⟩
      · show flattenAll loop.prologue ++ flattenAll body = _
        rw [hsplit]
        simp only [append_assoc]
      · have hrest := hafter.trans (advances_closed t _)
        rw [append_nil] at hrest
        exact hrest

def HasLine (text l : String) : Prop :=
  ∃ before after : List String, text = "\n".intercalate (before ++ l :: after) ++ "\n"

theorem hasLine_ofTask {k : Kernel} {index : Nat} {l : String}
    (h : l ∈ (finalState (taskTarget k index task) settings task).lines.toList) :
    HasLine (ofTask k settings index task).text l := by
  obtain ⟨before, after, hsplit⟩ := append_of_mem h
  rw [(ofTask_finalState k settings index task).1]
  simp only [assemble, hsplit]
  have hin : ∀ head : List String, HasLine ("\n".intercalate (head ++ (before ++ l :: after) ++ ["\x7d"]) ++ "\n") l :=
    fun head => ⟨head ++ before, after ++ ["\x7d"], by simp only [append_assoc, cons_append]⟩
  exact hin _

/-! ## 4. What is found under an id -/

section Lookup

variable {m : Std.HashMap StmtId Slot} {i : StmtId} {hint : String} {x : Slot}

theorem getElem?_declareSlot_self (h : m[i]? = none) :
    (declareSlot m (.op i (.alloca ty hint)))[i]? = some (.variable (varName i hint) ty) := by
  have hnew : m.contains i = false := by rw [Std.HashMap.contains_eq_isSome_getElem?, h]; rfl
  rw [declareSlot, hnew]
  exact Std.HashMap.getElem?_insert_self

theorem getElem?_declareSlot_of_ne (h : s.id ≠ i) : (declareSlot m s)[i]? = m[i]? := by
  cases s with
  | op j o =>
    cases o with
    | alloca ty hint =>
      rw [declareSlot]
      split
      · rfl
      · rw [Std.HashMap.getElem?_insert, if_neg]
        rw [beq_iff_eq]
        exact h
    | _ => rfl
  | _ => rfl

theorem getElem?_declareSlot_of_some (h : m[i]? = some x) : (declareSlot m s)[i]? = some x := by
  by_cases hi : s.id = i
  · subst hi
    cases s with
    | op j o =>
      cases o with
      | alloca ty hint =>
        have hold : m.contains j = true := by
          rw [Std.HashMap.contains_eq_isSome_getElem?, show m[j]? = some x from h]
          rfl
        rw [declareSlot, if_pos hold, h]
      | _ => exact h
    | _ => exact h
  · rw [getElem?_declareSlot_of_ne hi, h]

theorem getElem?_foldl_of_some (h : m[i]? = some x) : (ss.foldl declareSlot m)[i]? = some x := by
  induction ss generalizing m with
  | nil => exact h
  | cons s ss ih => exact ih (getElem?_declareSlot_of_some h)

theorem getElem?_foldl_of_not_mem (h : i ∉ ss.map Stmt.id) :
    (ss.foldl declareSlot m)[i]? = m[i]? := by
  induction ss generalizing m with
  | nil => rfl
  | cons s ss ih =>
    rw [map_cons, mem_cons, not_or] at h
    rw [foldl_cons, ih h.2, getElem?_declareSlot_of_ne fun hs => h.1 hs.symm]

theorem getElem?_foldl_of_mem (h : m[i]? = none) (hn : (ss.map Stmt.id).Nodup)
    (hmem : .op i (.alloca ty hint) ∈ ss) :
    (ss.foldl declareSlot m)[i]? = some (.variable (varName i hint) ty) := by
  obtain ⟨before, after, rfl⟩ := append_of_mem hmem
  have hbefore : i ∉ before.map Stmt.id := by
    rw [map_append, map_cons, nodup_append] at hn
    exact fun hi => hn.2.2 i hi i (mem_cons_self ..) rfl
  rw [foldl_append, foldl_cons]
  refine getElem?_foldl_of_some (getElem?_declareSlot_self ?_)
  rw [getElem?_foldl_of_not_mem hbefore, h]

end Lookup

end ArrayKernel.Shader
