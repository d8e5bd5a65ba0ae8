import ArrayKernel.Proofs.Shader.Lookup

/-!
# Statements inside statements

`Visits` relates a block and a state to every statement inside and the state in which that one is
written. `Wrote` is what holds of every block that is checked: each statement inside is written
where the definitions before it are found.
-/

namespace ArrayKernel.Shader

open IR Text List

variable {t : Target} {e e' e₁ : Emitter} {id : StmtId} {hint text : String} {d here : Defs}
  {ids : List StmtId} {n m : Nat} {s x : Stmt} {p : StmtId × Def}
  {all ss condBody yes no : List Stmt}

/-! ## 1. States inside statements -/

def forHeader (id : StmtId) (hint first last : String) : String :=
  s!"for (var {varName id hint}: i32 = {first}; {varName id hint} < {last}; {varName id hint} = {varName id hint} + 1i) \x7b"

def insideFor (id : StmtId) (first last : Operand) (hint : String) (t : Target) (e : Emitter) :
    Emitter :=
  let named := (declareIndex id hint t e).2
  opened (forHeader id hint (operand first t named).1 (operand last t named).1) t named

def tested (cond : Operand) (t : Target) (e : Emitter) : Emitter :=
  (line s!"if (!({(condition cond t e).1})) \x7b break; \x7d" t e).2

def insideIf (cond : Operand) (t : Target) (e : Emitter) : Emitter :=
  opened s!"if ({(condition cond t e).1}) \x7b" t e

def insideElse (t : Target) (e : Emitter) : Emitter :=
  opened "\x7d else \x7b" t { e with depth := e.depth - 1 }

def inner (t : Target) (e : Emitter) : Stmt → List (List Stmt × Emitter)
  | .op .. => []
  | .rangeFor id first last body hint => [(body, insideFor id first last hint t e)]
  | .while_ _ condBody cond body =>
    let start := opened "loop \x7b" t e
    [(condBody, start), (body, tested cond t (emitBlock condBody t start).2)]
  | .ifElse _ cond yes no =>
    let start := insideIf cond t e
    [(yes, start), (no, insideElse t (emitBlock yes t start).2)]

/-- Each statement of a block and of the blocks inside it, with the state in which it is written. -/
inductive Visits (t : Target) : List Stmt → Emitter → Stmt → Emitter → Prop where
  | here {s : Stmt} {ss : List Stmt} {e : Emitter} : Visits t (s :: ss) e s e
  | after {s x : Stmt} {ss : List Stmt} {e e' : Emitter} :
    Visits t ss (emitStmt s t e).2 x e' → Visits t (s :: ss) e x e'
  | inside {s x : Stmt} {ss ts : List Stmt} {e e₁ e' : Emitter} :
    (ts, e₁) ∈ inner t e s → Visits t ts e₁ x e' → Visits t (s :: ss) e x e'

section Equations

variable (t e) {cond : Operand} {body : List Stmt}

theorem emitStmt_rangeFor {first last : Operand} :
    (emitStmt (.rangeFor id first last body hint) t e).2
      = closed t (emitBlock body t (insideFor id first last hint t e)).2 := by
  simp only [emitStmt, run_bind, operand_state]
  rfl

theorem emitStmt_while :
    (emitStmt (.while_ id condBody cond body) t e).2
      = closed t (emitBlock body t (tested cond t (emitBlock condBody t (opened "loop \x7b" t e)).2)).2 := by
  simp only [emitStmt, indented, run_bind, condition_state]
  rfl

theorem emitStmt_if :
    (emitStmt (.ifElse id cond yes []) t e).2 = closed t (emitBlock yes t (insideIf cond t e)).2 := by
  simp only [emitStmt, run_bind, condition_state]
  rfl

theorem emitStmt_ifElse :
    (emitStmt (.ifElse id cond yes (s :: no)) t e).2
      = closed t (emitBlock (s :: no) t (insideElse t (emitBlock yes t (insideIf cond t e)).2)).2 := by
  simp only [emitStmt, run_bind, condition_state]
  rfl

theorem emitBlock_cons :
    (emitBlock (s :: ss) t e).2 = (emitBlock ss t (emitStmt s t e).2).2 := by
  rw [emitBlock, run_bind]

end Equations

theorem startsDeclaration_loop (name rest : String) :
    StartsDeclaration ("for (var " ++ name ++ ": i32 = " ++ rest) name := by
  refine ⟨['f', 'o', 'r', ' ', '(', 'v', 'a', 'r', ' '], by decide, ':', (" i32 = " ++ rest).toList, ?_, rfl⟩
  simp only [String.toList_append, append_assoc]
  rfl

theorem addsFrom_loop (hstart : StartsDeclaration text (varName id hint))
    (hlast : text.toList.getLast? = some '\x7b') :
    AddsFrom 0 1 t (· = id) (· = wordOf (varName id hint)) Never e (opened text t (declareIndex id hint t e).2)
      ∧ Found t (opened text t (declareIndex id hint t e).2) id .index := by
  refine ⟨((adds_insertValue id _).trans (hstart.addsFrom_opened hlast 0) fun _ => False.elim).imp
    ?_ ?_ ?_, ?_, nofun, nofun⟩
  · exact fun _ => (·.resolve_right not_false)
  · exact fun _ => (·.resolve_left not_false)
  · simp
  · rintro ty ⟨⟩
    exact ⟨varName id hint, Std.HashMap.getElem?_insert_self, hstart.inScope (t := t)⟩

theorem startsDeclaration_forHeader {first : String} (last : String) :
    StartsDeclaration (forHeader id hint first last) (varName id hint)
      ∧ (forHeader id hint first last).toList.getLast? = some '\x7b' := by
  let name := varName id hint
  refine ⟨?_, getLast?_append rfl⟩
  have h := startsDeclaration_loop name (first ++ "; " ++ name ++ " < " ++ last ++ "; " ++ name
    ++ " = " ++ name ++ " + 1i) \x7b")
  simp only [← String.append_assoc] at h
  exact h

theorem begins_if : Begins ("if (" ++ text) :=
  Begins.append ⟨'i', 'f', _, rfl, by decide, by decide, rfl⟩ _

theorem adds_tested (cond : Operand) : Adds t Never Never Never e (tested cond t e) :=
  adds_line ⟨(Begins.append ⟨'i', 'f', _, rfl, by decide, by decide, rfl⟩ _).append _, '\x7d',
    getLast?_append rfl, by decide⟩

theorem addsFrom_insideIf (cond : Operand) :
    AddsFrom 0 1 t Never Never Never e (insideIf cond t e) :=
  addsFrom_opened (begins_if.append _) (getLast?_append rfl) 0

theorem addsFrom_insideElse (m : Nat) :
    AddsFrom (m + 1) (m + 1) t Never Never Never e (insideElse t e) := by
  have hdepth : AddsFrom (m + 1) (m + 1) t Never Never Never e { e with depth := e.depth - 1 } :=
    .same rfl rfl rfl rfl rfl
  exact hdepth.before (addsFrom_else.before (.same rfl rfl rfl rfl rfl))

/-! ## 2. States that are ready for statements -/

structure Ready (t : Target) (here : Defs) (ids : List StmtId) (e : Emitter) : Prop where
  bound : Bound t e
  found : ∀ p ∈ here, Found t e p.1 p.2
  shared : ∀ x ∈ t.kernel.shared, e.slots[x.slot]? = some (.shared x.offset x.ty)
  fresh : ∀ i ∈ ids, ∀ s, e.slots[i]? = some s → ∃ x ∈ t.kernel.shared, x.slot = i ∧ s = .shared x.offset x.ty
  nodup : ids.Nodup
  apart : ∀ p ∈ here, p.1 ∉ ids

theorem Ready.later {ids' : List StmtId} {I : StmtId → Prop} {W : List Char → Prop}
    {U : ResourceKind → Prop} (h : Ready t here ids e) (ha : AddsFrom 0 n t I W U e e')
    (hhere : ∀ p ∈ here, ¬ I p.1) (hids : ∀ i ∈ ids', i ∈ ids ∧ ¬ I i) (hnodup : ids'.Nodup) :
    Ready t here ids' e' where
  bound := ha.bound h.bound
  found p hp := (h.found p hp).later ha (hhere p hp)
  shared x hx := ha.kept _ _ (h.shared x hx)
  fresh i hi s hs := by
    rw [ha.slots i (hids i hi).2] at hs
    exact h.fresh i (hids i hi).1 s hs
  nodup := hnodup
  apart p hp hi := h.apart p hp (hids _ hi).1

theorem Ready.extend (h : Ready t here ids e) (hd : ∀ p ∈ d, Found t e p.1 p.2 ∧ p.1 ∉ ids) :
    Ready t (here ++ d) ids e :=
  { h with
    found := fun p hp => (mem_append.1 hp).elim (h.found p) fun hp => (hd p hp).1
    apart := fun p hp => (mem_append.1 hp).elim (h.apart p) fun hp => (hd p hp).2 }

section Into

variable {here : Defs} {id : StmtId} {ids ids' : List StmtId} {n : Nat} {W : List Char → Prop}
  {U : ResourceKind → Prop}

theorem Ready.intoLoop (h : Ready t here (id :: ids) e) (ha : AddsFrom 0 n t (· = id) W U e e')
    (hindex : Found t e' id .index) : Ready t (here ++ [(id, .index)]) ids e' := by
  obtain ⟨hnew, hnodup⟩ := nodup_cons.1 h.nodup
  refine (h.later ha ?_ ?_ hnodup).extend ?_
  · exact fun p hp heq => h.apart p hp (heq ▸ mem_cons_self ..)
  · exact fun i hi => ⟨mem_cons_of_mem _ hi, fun heq => hnew (heq ▸ hi)⟩
  · intro p hp
    rw [mem_singleton.1 hp]
    exact ⟨hindex, hnew⟩

theorem Ready.intoFirst (h : Ready t here (id :: (ids ++ ids')) e)
    (ha : AddsFrom 0 n t Never W U e e') : Ready t here ids e' :=
  h.later ha (fun _ _ => not_false) (fun i hi => ⟨by simp [hi], not_false⟩)
    (nodup_append.1 (nodup_cons.1 h.nodup).2).1

theorem Ready.intoSecond (h : Ready t here (id :: (ids ++ ids')) e)
    (ha : AddsFrom 0 n t (· ∈ ids) W U e e') : Ready t here ids' e' := by
  obtain ⟨-, hnodup, hdisj⟩ := nodup_append.1 (nodup_cons.1 h.nodup).2
  refine h.later ha ?_ ?_ hnodup
  · exact fun p hp hi => h.apart p hp (by simp [hi])
  · exact fun i hi => ⟨by simp [hi], fun hi' => hdisj i hi' i hi rfl⟩

end Into

theorem mem_idsOf_of_mem_defs (h : p ∈ s.defs) : p.1 ∈ Stmt.idsOf [s] := by
  cases s with
  | op i o =>
    rw [mem_singleton.1 h]
    exact mem_singleton_self i
  | _ => cases h

theorem mem_idsOf_of_mem_defsOf (h : p ∈ Stmt.defsOf ss) : p.1 ∈ Stmt.idsOf ss := by
  induction ss with
  | nil => cases h
  | cons s ss ih =>
    rw [show Stmt.idsOf (s :: ss) = Stmt.idsOf [s] ++ Stmt.idsOf ss from Stmt.idsOf_append [s] ss]
    rcases mem_append.1 h with h | h
    · exact mem_append_left _ (mem_idsOf_of_mem_defs h)
    · exact mem_append_right _ (ih h)

/-- The address has an element of the field, according to the statements. -/
def fieldIn (all : List Stmt) (p : StmtId) (f : Nat) : Prop :=
  ∃ is offset, Stmt.op p (.globalPtr f is offset) ∈ all

def sharedIn (k : Kernel) (s : StmtId) : Prop := ∃ x ∈ k.shared, x.slot = s

def MentionedBy (k : Kernel) (all ss : List Stmt) (kind : ResourceKind) : Prop :=
  ∃ i o, Stmt.op i o ∈ ss ∧ Mentions (fieldIn all) (sharedIn k) o kind

def Within (all : List Stmt) (d : Defs) : Prop := ∀ i o, (i, Def.op o) ∈ d → Stmt.op i o ∈ all

def OpsIn (all ss : List Stmt) : Prop := ∀ i o, Stmt.op i o ∈ Stmt.flattenAll ss → Stmt.op i o ∈ all

theorem mem_flattenAll (h : s ∈ ss) : s ∈ Stmt.flattenAll ss := by
  induction ss with
  | nil => cases h
  | cons x ss ih =>
    rcases mem_cons.1 h with rfl | h
    · refine mem_append_left _ ?_
      cases s <;> exact mem_cons_self ..
    · exact mem_append_right _ (ih h)

theorem Within.index (h : Within all d) (i : StmtId) : Within all (d ++ [(i, .index)]) := by
  intro j o hj
  rcases mem_append.1 hj with hj | hj
  · exact h j o hj
  · cases mem_singleton.1 hj

theorem Within.defs (h : Within all d) (hs : OpsIn all [s]) : Within all (d ++ s.defs) := by
  intro j o hj
  rcases mem_append.1 hj with hj | hj
  · exact h j o hj
  · cases s with
    | op i o' =>
      cases mem_singleton.1 hj
      exact hs j o (mem_singleton_self _)
    | _ => cases hj

theorem OpsIn.within (h : OpsIn all ss) : Within all (Stmt.defsOf ss) := by
  intro i o hi
  obtain ⟨s, hs, hdef⟩ := mem_flatMap.1 hi
  cases s with
  | op j o' =>
    cases mem_singleton.1 hdef
    exact h i o (mem_flattenAll hs)
  | _ => cases hdef

def Unambiguous (all : List Stmt) : Prop :=
  ∀ i o o', Stmt.op i o ∈ all → Stmt.op i o' ∈ all → o = o'

/-- The references that writing depends on: an address is one of the block, and so is a slot unless
it is shared. -/
def Reaches (k : Kernel) (d : Defs) (o : Op) : Prop :=
  (∀ p, o.ptr? = some p → IsAddress d p) ∧ ∀ s, o.slot? = some s → (∃ ty, IsSlot d s ty) ∨ sharedIn k s

section Op

variable {here : Defs} {ids : List StmtId} {o : Op} {all : List Stmt} (h : Ready t here ids e)
  (hr : Reaches t.kernel here o)
include h hr

theorem Ready.findsAddress {p : StmtId} (hp : o.ptr? = some p) :
    ∃ f is offset, (p, Def.op (.globalPtr f is offset)) ∈ here ∧ FindsAddress e p f := by
  obtain ⟨f, is, offset, hm⟩ := hr.1 p hp
  exact ⟨f, is, offset, hm, (h.found _ hm).address f is offset rfl⟩

theorem Ready.findsSlot {s : StmtId} (hs : o.slot? = some s) : FindsSlot t e s := by
  rcases hr.2 s hs with ⟨ty, hint, hm⟩ | ⟨x, hx, rfl⟩
  · exact (h.found _ hm).slot ty hint rfl
  · exact .inr ⟨x, hx, rfl, h.shared x hx⟩

theorem Ready.binds_iff (hall : Within all here) (hone : Unambiguous all) (kind : ResourceKind) :
    Binds e o kind ↔ Mentions (fieldIn all) (sharedIn t.kernel) o kind := by
  refine mentions_congr (fun p hp f => ?_) (fun s hs => ?_)
  · obtain ⟨g, is, offset, hm, a, ha, -⟩ := h.findsAddress hr hp
    constructor
    · rintro ⟨b, hb⟩
      rw [ha] at hb
      cases hb
      exact ⟨is, offset, hall _ _ hm⟩
    · rintro ⟨is', offset', hm'⟩
      have := hone p _ _ (hall _ _ hm) hm'
      cases this
      exact ⟨a, ha⟩
  · constructor
    · rintro ⟨offset, ty, hsome⟩
      rcases h.findsSlot hr hs with ⟨hint, ty', hvar, -⟩ | ⟨x, hx, hslot, -⟩
      · rw [hvar] at hsome
        cases hsome
      · exact ⟨x, hx, hslot⟩
    · rintro ⟨x, hx, rfl⟩
      exact ⟨_, _, h.shared x hx⟩

end Op

/-! ## 3. Statements and blocks -/

abbrev AddsBlock (m n : Nat) (t : Target) (all ss : List Stmt) : Emitter → Emitter → Prop :=
  AddsFrom m n t (· ∈ Stmt.idsOf ss) (fun w => ∃ i ∈ Stmt.idsOf ss, OfId i w)
    (MentionedBy t.kernel all (Stmt.flattenAll ss))

theorem AddsBlock.join {p : Nat} {ts xs : List Stmt} {e2 : Emitter}
    (h : AddsBlock m n t all ss e e₁) (h' : AddsBlock n p t all ts e₁ e2)
    (hdisj : ∀ i ∈ Stmt.idsOf ss, ∀ j ∈ Stmt.idsOf ts, i ≠ j)
    (hids : ∀ i, i ∈ Stmt.idsOf ss ∨ i ∈ Stmt.idsOf ts → i ∈ Stmt.idsOf xs)
    (hops : ∀ i o, Stmt.op i o ∈ Stmt.flattenAll xs ↔ Stmt.op i o ∈ Stmt.flattenAll ss ∨
      Stmt.op i o ∈ Stmt.flattenAll ts) :
    AddsBlock m p t all xs e e2 := by
  refine (h.trans h' ?_).imp hids ?_ ?_
  · rintro w ⟨i, hi, hof⟩ ⟨j, hj, hof'⟩
    exact hdisj i hi j hj (hof.id_eq hof')
  · rintro w (⟨i, hi, hof⟩ | ⟨i, hi, hof⟩)
    · exact ⟨i, hids i (.inl hi), hof⟩
    · exact ⟨i, hids i (.inr hi), hof⟩
  · intro kind
    simp only [MentionedBy, hops, or_and_right, exists_or]

theorem AddsFrom.addsBlock_nil (h : AddsFrom m n t Never Never Never e e') :
    AddsBlock m n t all [] e e' := by
  refine h.imp (fun _ => False.elim) (fun _ => False.elim) fun kind => ?_
  simp [MentionedBy, Stmt.flattenAll]

/-- A statement is checked with definitions that are found in the state. -/
def Placed (t : Target) (all : List Stmt) (c : Check) (s : Stmt) (e : Emitter) : Prop :=
  ∃ d, c.stmt d s ∧ Ready t d (Stmt.idsOf [s]) e ∧ Within all d ∧ OpsIn all [s]

structure Wrote (t : Target) (all : List Stmt) (c : Check) (ss : List Stmt) (e e' : Emitter) :
    Prop where
  adds : AddsBlock 0 0 t all ss e e'
  found : ∀ p ∈ Stmt.defsOf ss, Found t e' p.1 p.2
  visits : ∀ s e₁, Visits t ss e s e₁ → Placed t all c s e₁

theorem Visits.singleton (h : Visits t [s] e x e₁) :
    (x = s ∧ e₁ = e) ∨ ∃ ts e2, (ts, e2) ∈ inner t e s ∧ Visits t ts e2 x e₁ := by
  cases h with
  | here => exact .inl ⟨rfl, rfl⟩
  | after h => cases h
  | inside h hin => exact .inr ⟨_, _, h, hin⟩

section Induction

variable {all body : List Stmt} {c : Check} {cond : Operand}

theorem Placed.visits (hs : Placed t all c s e)
    (hinner : ∀ p ∈ inner t e s, ∀ x e₁, Visits t p.1 p.2 x e₁ → Placed t all c x e₁) :
    ∀ x e₁, Visits t [s] e x e₁ → Placed t all c x e₁ := by
  intro x e₁ hv
  rcases hv.singleton with ⟨rfl, rfl⟩ | ⟨ts, e2, h, hts⟩
  · exact hs
  · exact hinner _ h x e₁ hts

/-- What the check has to say about the simple statements of `all`. -/
def EnsuresReach (k : Kernel) (all : List Stmt) (c : Check) : Prop :=
  ∀ d i o, Stmt.op i o ∈ all → c.op d o → Reaches k d o

theorem wrote_op (hone : Unambiguous all) (hc : EnsuresReach t.kernel all c) {o : Op}
    (hs : c.stmt here (.op id o)) (hr : Ready t here [id] e) (hall : Within all here)
    (hin : OpsIn all [.op id o]) : Wrote t all c [.op id o] e (emitStmt (.op id o) t e).2 := by
  have hreach := hc here id o (hin id o (mem_singleton_self _)) hs
  have hop : Emitted t id o e (emitOp id o t e).2 := by
    refine emitted_op hr.bound (fun p hp => ?_) (fun s hs => hr.findsSlot hreach hs)
      (hr.fresh id (mem_singleton_self id))
    obtain ⟨f, is, offset, -, hf⟩ := hr.findsAddress hreach hp
    exact ⟨f, hf⟩
  refine ⟨hop.adds.imp ?_ ?_ ?_, ?_, ?_⟩
  · exact fun i hi => mem_singleton.2 hi
  · exact fun w hw => ⟨id, mem_singleton_self id, hw⟩
  · intro kind
    rw [hr.binds_iff hreach hall hone]
    constructor
    · exact fun h => ⟨id, o, mem_singleton_self _, h⟩
    · rintro ⟨i, o', hmem, h⟩
      cases mem_singleton.1 hmem
      exact h
  · rintro p hp
    rw [mem_singleton.1 hp]
    exact hop.found
  · exact Placed.visits ⟨here, hs, hr, hall, hin⟩ (forall_mem_nil _)

theorem wrote_rangeFor {first last : Operand} (hs : c.stmt here (.rangeFor id first last body hint))
    (hr : Ready t here (id :: Stmt.idsOf body) e) (hall : Within all here)
    (hin : OpsIn all [.rangeFor id first last body hint])
    (hbody : ∀ e₁, Ready t (here ++ [(id, .index)]) (Stmt.idsOf body) e₁ → Wrote t all c body e₁
      (emitBlock body t e₁).2) :
    Wrote t all c [.rangeFor id first last body hint] e (emitStmt (.rangeFor id first last body hint) t e).2 := by
  obtain ⟨hnew, hnodup⟩ := nodup_cons.1 hr.nodup
  obtain ⟨hstart, hlast⟩ := startsDeclaration_forHeader
    (operand last t (declareIndex id hint t e).2).1
  obtain ⟨hadds, hindex⟩ := addsFrom_loop hstart hlast
  have hw := hbody _ (hr.intoLoop hadds hindex)
  rw [emitStmt_rangeFor]
  refine ⟨((hadds.trans (hw.adds.within 1) ?_).before addsFrom_closed).imp ?_ ?_ ?_, forall_mem_nil _, ?_⟩
  · rintro w rfl ⟨i, hi, hof⟩
    exact hnew (ofId_varName.id_eq hof ▸ hi)
  · simp
  · rintro w (rfl | ⟨i, hi, hof⟩)
    · exact ⟨id, by simp, ofId_varName⟩
    · exact ⟨i, by simp [hi], hof⟩
  · simp [MentionedBy, Stmt.flattenAll, Stmt.flatten]
  · exact Placed.visits ⟨here, hs, by simpa using hr, hall, hin⟩ (forall_mem_singleton.2 hw.visits)

theorem wrote_while (hs : c.stmt here (.while_ id condBody cond body))
    (hr : Ready t here (id :: (Stmt.idsOf condBody ++ Stmt.idsOf body)) e) (hall : Within all here)
    (hin : OpsIn all [.while_ id condBody cond body])
    (hcond : ∀ e₁, Ready t here (Stmt.idsOf condBody) e₁ → Wrote t all c condBody e₁ (emitBlock condBody t e₁).2)
    (hbody : ∀ e₁, Ready t here (Stmt.idsOf body) e₁ → Wrote t all c body e₁ (emitBlock body t e₁).2) :
    Wrote t all c [.while_ id condBody cond body] e (emitStmt (.while_ id condBody cond body) t e).2 := by
  have hids := nodup_append.1 (nodup_cons.1 hr.nodup).2
  -- the body is written after the statements of the condition and the test
  have hopen := addsFrom_opened (t := t) (e := e) begins_loop rfl 0
  have hw := hcond _ (hr.intoFirst hopen)
  have htest := (hopen.silently (hw.adds.within 1)).before ((adds_tested cond).within 1)
  have hw' := hbody _ (hr.intoSecond htest)
  rw [emitStmt_while]
  refine ⟨.join htest ((hw'.adds.within 1).before addsFrom_closed) hids.2.2 ?_ ?_, forall_mem_nil _, ?_⟩
  · rintro i (h | h) <;> simp [h]
  · simp [Stmt.flattenAll, Stmt.flatten]
  · refine Placed.visits ⟨here, hs, by simpa using hr, hall, hin⟩ ?_
    exact forall_mem_cons.2 ⟨hw.visits, forall_mem_singleton.2 hw'.visits⟩

theorem wrote_ifElse (hs : c.stmt here (.ifElse id cond yes no))
    (hr : Ready t here (id :: (Stmt.idsOf yes ++ Stmt.idsOf no)) e) (hall : Within all here)
    (hin : OpsIn all [.ifElse id cond yes no])
    (hyes : ∀ e₁, Ready t here (Stmt.idsOf yes) e₁ → Wrote t all c yes e₁ (emitBlock yes t e₁).2)
    (hno : ∀ e₁, Ready t here (Stmt.idsOf no) e₁ → Wrote t all c no e₁ (emitBlock no t e₁).2) :
    Wrote t all c [.ifElse id cond yes no] e (emitStmt (.ifElse id cond yes no) t e).2 := by
  have hids := nodup_append.1 (nodup_cons.1 hr.nodup).2
  have hif := addsFrom_insideIf (t := t) (e := e) cond
  have hw := hyes _ (hr.intoFirst hif)
  have hfirst := hif.silently (hw.adds.within 1)
  have hw' := hno _ (hr.intoSecond (hfirst.before (addsFrom_insideElse 0)))
  refine ⟨?_, forall_mem_nil _, ?_⟩
  · have hmem : ∀ i, i ∈ Stmt.idsOf yes ∨ i ∈ Stmt.idsOf no → i ∈ Stmt.idsOf [.ifElse id cond yes no] := by
      rintro i (h | h) <;> simp [h]
    have hops : ∀ i o, .op i o ∈ Stmt.flattenAll [.ifElse id cond yes no]
        ↔ Stmt.op i o ∈ Stmt.flattenAll yes ∨ Stmt.op i o ∈ Stmt.flattenAll no := by
      simp [Stmt.flattenAll, Stmt.flatten]
    -- a branch without statements is not written at all
    cases no with
    | nil =>
      rw [emitStmt_if]
      exact .join hfirst addsFrom_closed.addsBlock_nil hids.2.2 hmem hops
    | cons s no =>
      rw [emitStmt_ifElse]
      exact .join (hfirst.before (addsFrom_insideElse 0))
        ((hw'.adds.within 1).before addsFrom_closed) hids.2.2 hmem hops
  · refine Placed.visits ⟨here, hs, by simpa using hr, hall, hin⟩ ?_
    exact forall_mem_cons.2 ⟨hw.visits, forall_mem_singleton.2 hw'.visits⟩

theorem wrote_cons (hr : Ready t here (Stmt.idsOf (s :: ss)) e)
    (hs : Ready t here (Stmt.idsOf [s]) e → Wrote t all c [s] e (emitStmt s t e).2)
    (hss : ∀ e₁, Ready t (here ++ s.defs) (Stmt.idsOf ss) e₁ → Wrote t all c ss e₁ (emitBlock ss t e₁).2) :
    Wrote t all c (s :: ss) e (emitBlock (s :: ss) t e).2 := by
  have hids : Stmt.idsOf (s :: ss) = Stmt.idsOf [s] ++ Stmt.idsOf ss := Stmt.idsOf_append [s] ss
  rw [hids] at hr
  obtain ⟨hnodup1, hnodup2, hdisj⟩ := nodup_append.1 hr.nodup
  have hw := hs (hr.later (.refl e) (fun _ _ => not_false) (fun i hi => ⟨by simp [hi], not_false⟩) hnodup1)
  have hdefs : ∀ p ∈ s.defs, Found t (emitStmt s t e).2 p.1 p.2 ∧ p.1 ∈ Stmt.idsOf [s] := fun p hp =>
    ⟨hw.found p (by simpa using hp), mem_idsOf_of_mem_defs hp⟩
  have hw' := hss _ (by
    refine (hr.later hw.adds ?_ ?_ hnodup2).extend ?_
    · exact fun p hp h => hr.apart p hp (by simp [h])
    · exact fun i hi => ⟨by simp [hi], fun h => hdisj i h i hi rfl⟩
    · exact fun p hp => ⟨(hdefs p hp).1, fun h => hdisj _ (hdefs p hp).2 _ h rfl⟩)
  refine ⟨.join hw.adds hw'.adds hdisj ?_ ?_, ?_, ?_⟩
  · rw [hids]
    exact fun i h => mem_append.2 h
  · simp [Stmt.flattenAll]
  · intro p hp
    rcases mem_append.1 hp with hp | hp
    · exact (hdefs p hp).1.later hw'.adds fun h => hdisj _ (hdefs p hp).2 _ h rfl
    · exact hw'.found p hp
  · intro x e₁ hv
    cases hv with
    | here => exact hw.visits s e .here
    | after h => exact hw'.visits x e₁ h
    | inside h hin => exact hw.visits x e₁ (.inside h hin)

mutual

theorem wrote_stmt (hone : Unambiguous all) (hc : EnsuresReach t.kernel all c) {here : Defs}
    {e : Emitter} :
    (s : Stmt) → c.stmt here s → Ready t here (Stmt.idsOf [s]) e → Within all here → OpsIn all [s] →
    Wrote t all c [s] e (emitStmt s t e).2
  | .op id o, hs, hr, hall, hin => wrote_op hone hc hs hr hall hin
  | .rangeFor id first last body hint, hs, hr, hall, hin => by
    rw [Stmt.idsOf_rangeFor] at hr
    refine wrote_rangeFor hs hr hall hin fun e₁ hr1 =>
      wrote_block hone hc body hs.2 hr1 (hall.index id) fun i o h => hin i o ?_
    simp [Stmt.flattenAll, Stmt.flatten, h]
  | .while_ id condBody cond body, hs, hr, hall, hin => by
    rw [Stmt.idsOf_while] at hr
    refine wrote_while hs hr hall hin (fun e₁ hr1 => wrote_block hone hc condBody hs.1 hr1 hall fun i o h => hin i o ?_)
      fun e₁ hr1 => wrote_block hone hc body hs.2.2 hr1 hall fun i o h => hin i o ?_
    · simp [Stmt.flattenAll, Stmt.flatten, h]
    · simp [Stmt.flattenAll, Stmt.flatten, h]
  | .ifElse id cond yes no, hs, hr, hall, hin => by
    rw [Stmt.idsOf_ifElse] at hr
    refine wrote_ifElse hs hr hall hin (fun e₁ hr1 => wrote_block hone hc yes hs.2.1 hr1 hall fun i o h => hin i o ?_)
      fun e₁ hr1 => wrote_block hone hc no hs.2.2 hr1 hall fun i o h => hin i o ?_
    · simp [Stmt.flattenAll, Stmt.flatten, h]
    · simp [Stmt.flattenAll, Stmt.flatten, h]

/-- A block that is checked, written in a state that is ready for it. -/
theorem wrote_block (hone : Unambiguous all) (hc : EnsuresReach t.kernel all c) {here : Defs}
    {e : Emitter} :
    (ss : List Stmt) → c.block here ss → Ready t here (Stmt.idsOf ss) e → Within all here → OpsIn all ss →
    Wrote t all c ss e (emitBlock ss t e).2
  | [], _, _, _, _ => ⟨(AddsFrom.refl e).addsBlock_nil, forall_mem_nil _, fun _ _ h => by cases h⟩
  | s :: ss, hs, hr, hall, hin => by
    have hin1 : OpsIn all [s] := fun i o h => hin i o (by
      simpa [Stmt.flattenAll] using .inl (by simpa [Stmt.flattenAll] using h))
    refine wrote_cons hr (fun hr1 => wrote_stmt hone hc s hs.1 hr1 hall hin1) fun e₁ hr1 =>
      wrote_block hone hc ss hs.2 hr1 (hall.defs hin1) ?_
    exact fun i o h => hin i o (by simp [Stmt.flattenAll, h])

end

end Induction

mutual

theorem exists_visits_stmt {e : Emitter} :
    (s : Stmt) → x ∈ Stmt.flatten s → ∃ e', Visits t [s] e x e'
  | .op id o, h => by
    rw [mem_singleton.1 h]
    exact ⟨e, .here⟩
  | .rangeFor id first last body hint, h => by
    rcases mem_cons.1 h with rfl | h
    · exact ⟨e, .here⟩
    · obtain ⟨e', hv⟩ := exists_visits_block body h
      exact ⟨e', .inside (mem_cons_self ..) hv⟩
  | .while_ id condBody cond body, h => by
    rcases mem_cons.1 h with rfl | h
    · exact ⟨e, .here⟩
    · rcases mem_append.1 h with h | h
      · obtain ⟨e', hv⟩ := exists_visits_block condBody h
        exact ⟨e', .inside (mem_cons_self ..) hv⟩
      · obtain ⟨e', hv⟩ := exists_visits_block body h
        exact ⟨e', .inside (mem_cons_of_mem _ (mem_cons_self ..)) hv⟩
  | .ifElse id cond yes no, h => by
    rcases mem_cons.1 h with rfl | h
    · exact ⟨e, .here⟩
    · rcases mem_append.1 h with h | h
      · obtain ⟨e', hv⟩ := exists_visits_block yes h
        exact ⟨e', .inside (mem_cons_self ..) hv⟩
      · obtain ⟨e', hv⟩ := exists_visits_block no h
        exact ⟨e', .inside (mem_cons_of_mem _ (mem_cons_self ..)) hv⟩

theorem exists_visits_block {e : Emitter} :
    (ss : List Stmt) → x ∈ Stmt.flattenAll ss → ∃ e', Visits t ss e x e'
  | [], h => by cases h
  | s :: ss, h => by
    rcases mem_append.1 h with h | h
    · obtain ⟨e', hv⟩ := exists_visits_stmt s h
      rcases hv.singleton with ⟨rfl, rfl⟩ | ⟨ts, e2, hin, hv⟩
      · exact ⟨_, .here⟩
      · exact ⟨e', .inside hin hv⟩
    · obtain ⟨e', hv⟩ := exists_visits_block ss h
      exact ⟨e', .after hv⟩

end

end ArrayKernel.Shader
