import ArrayKernel.Proofs.Lowering.Given
import ArrayKernel.Proofs.Lowering.Traversal

/-!
# Functions write to their own slots

A function that is expanded in place writes to slots that are made in the expansion, or that are in
a place which it was given (`calls_keep_to_their_slots`). `Does` follows the slots in scope, for
any set of them.
-/

namespace ArrayKernel.Lowering

open IR Surface List IR.Stmt

variable {P : Prop} {ps : List Surface.Param} {as : List Arg} {inner scope : Scope}

/-! ## 1. What a call may write to -/

def Makes (ss : List IR.Stmt) (slot : StmtId) : Prop :=
  ∃ ty hint, op slot (.alloca ty hint) ∈ flattenAll ss

/-- One of the statements changes the slot: it stores to it, or is an atomic operation on it. -/
def WritesTo (ss : List IR.Stmt) (slot : StmtId) : Prop :=
  ∃ i o, op i o ∈ flattenAll ss ∧ o.written? = some slot

def Lowered.slots (l : Lowered) : List StmtId := l.held.filterMap Held.slot?

def slotsOf (v : Value) : List StmtId := v.held.filterMap Held.slot?

/-- The slots of the arguments and of the record that the function is a method of. -/
def slotsGiven (args : List Arg) (receiver : Option Value) : List StmtId :=
  args.flatMap (·.lowered.slots) ++ receiver.elim [] slotsOf

mutual

theorem slotless_of_given :
    (v : Value) → ValueAll (fun v => v.isTransient = false) v → ∀ h ∈ v.held, h.slot? = none
  | .record r, hv => slotless_of_givenRecord r hv.2
  | .place _, hv => by cases hv
  | .function _, _ => forall_mem_singleton.2 rfl
  | .number _, _ | .array .., _ | .field _, _ | .texture _, _ | .bound .., _ | .arg .., _ => forall_mem_nil _

theorem slotless_of_givenRecord :
    (r : Record) → RecordAll (fun v => v.isTransient = false) r → ∀ h ∈ r.held, h.slot? = none
  | .nil, _ => forall_mem_nil _
  | .cons _ v rest, hr => forall_mem_append.2 ⟨slotless_of_given v hr.1, slotless_of_givenRecord rest hr.2⟩

end

/-- The slots are those that are allowed, and any routines may be called. -/
def OnSlots (S : StmtId → Prop) (h : Held) : Prop := ∀ i, h.slot? = some i → S i

theorem callClosed_onSlots {S : StmtId → Prop} : CallClosed (OnSlots S) :=
  ⟨fun _ _ => nofun, fun _ => nofun⟩

theorem among_onSlots {S : StmtId → Prop} {hs : List Held}
    (h : ∀ i ∈ hs.filterMap Held.slot?, S i) : Among (OnSlots S) hs :=
  fun x hx i hi => h i (mem_filterMap.2 ⟨x, hx, hi⟩)

variable {α : Type} {σ : Site} {m : Lower α} {a : α} {b b' : Builder}

theorem Does.appends {W : α → Prop} (hm : Does σ m m P W) (htop : σ.top = false) (hb : σ.Fits b)
    (h : m b = .ok a b') :
    ∃ ss, b'.block.toList = b.block.toList ++ ss ∧ b'.tasks = b.tasks ∧ σ.Keeps P (code ss) (W a) ∧
      ∀ hand, Accounted hand b → Accounted hand b' := by
  have hrun (hand : List StmtId) := h ▸ (hm.takes hand b hb).2
  have hids (hand : List StmtId) : Accounted hand b → Accounted hand b' := by
    cases hrun hand with
    | ok es kept layout ids post =>
      obtain ⟨rfl, -⟩ := post
      exact ids
  cases hrun [] with
  | ok es kept layout ids post =>
    obtain ⟨-, -, hcode, hkeeps⟩ := post
    obtain ⟨ss, rfl⟩ := hcode htop
    rw [Layout.after_code] at layout
    exact ⟨ss, congrArg Layout.block layout, Array.toList_inj.1 (congrArg Layout.tasks layout), hkeeps, hids⟩

/-! ## 2. Arguments -/

theorem Tidy.grows {S : Held → Prop} {V : α → Prop} (hm : Tidy S P m V) (h : m b = .ok a b') :
    b.nextId ≤ b'.nextId ∧ b.block.toList <+: b'.block.toList := by
  induction hm generalizing b b' with
  | of => cases h; exact ⟨Nat.le_refl _, prefix_rfl⟩
  | fail => cases h
  | bind _ _ ihm ihf =>
    obtain ⟨x, b1, h1, h2⟩ := bind_ok h
    exact ⟨Nat.le_trans (ihm h1).1 (ihf x h2).1, (ihm h1).2.trans (ihf x h2).2⟩
  | imp _ _ _ ih => exact ih h
  | emit => cases h; exact ⟨Nat.le_succ _, by simp⟩
  | touchField | touchTexture => cases h; exact ⟨Nat.le_refl _, prefix_rfl⟩

def Builder.withSlot (b : Builder) (o : Operand) (ty : Ty) (hint : String) : Builder :=
  { b with
    nextId := b.nextId + 2
    block := (b.block.push (.op b.nextId (.alloca ty hint))).push (.op (b.nextId + 1) (.localStore b.nextId [] o)) }

theorem bindArg_value (name : String) (span : Span) (o : Operand) (ty : Ty) (b : Builder) :
    bindArg name span (.value o ty) b = .ok (.place (.local b.nextId ty [] ty)) (b.withSlot o ty (hintOf name)) := by
  rfl

theorem grows_bindArgs (h : bindArgs scope ps as b = .ok inner b') :
    b.nextId ≤ b'.nextId ∧ b.block.toList <+: b'.block.toList :=
  (tidy_bindArgs (S := fun _ => True) False.elim False.elim).grows h

theorem get?_bindArgs_of_ne {name : String} (h : bindArgs scope ps as b = .ok inner b')
    (hname : ∀ p ∈ ps, p.name.text ≠ name) : inner.get? name = scope.get? name := by
  induction ps generalizing as scope b with
  | nil => cases h; rfl
  | cons p ps ih =>
    obtain ⟨hp, hps⟩ := forall_mem_cons.1 hname
    cases as with
    | nil => cases h; rfl
    | cons x as =>
      obtain ⟨v, b1, -, h⟩ := bind_ok h
      rw [ih h hps, Scope.get?_insert, if_neg hp]

/-- The last parameter of a name stands for what the argument at its position became. -/
theorem get?_bindArgs (h : bindArgs scope ps as b = .ok inner b')
    {k : Nat} {p : Surface.Param} {x : Arg} (hp : ps[k]? = some p) (hx : as[k]? = some x)
    (hlast : ∀ q ∈ ps.drop (k + 1), q.name.text ≠ p.name.text) :
    ∃ b1 b2 v, bindArg p.name.text x.span x.lowered b1 = .ok v b2 ∧ inner.get? p.name.text = some v ∧
      b.nextId ≤ b1.nextId ∧ b.block.toList <+: b1.block.toList ∧ b2.block.toList <+: b'.block.toList := by
  induction ps generalizing as scope b k with
  | nil => cases hp
  | cons q ps ih =>
    cases as with
    | nil => cases hx
    | cons y as =>
      obtain ⟨v, b1, h1, h2⟩ := bind_ok h
      cases k with
      | zero =>
        cases hp
        cases hx
        refine ⟨b, b1, v, h1, ?_, Nat.le_refl _, prefix_rfl, (grows_bindArgs h2).2⟩
        rw [get?_bindArgs_of_ne h2 hlast, Scope.get?_insert, if_pos rfl]
      | succ k =>
        obtain ⟨hnext, hblock⟩ := (tidy_bindArg (S := fun _ => True) _ False.elim).grows h1
        obtain ⟨b2, b3, w, hw, hget, hnext', hblock', hlater⟩ := ih h2 hp hx hlast
        exact ⟨b2, b3, w, hw, hget, Nat.le_trans hnext hnext', hblock.trans hblock', hlater⟩

/-! ## 3. Calls -/

/-- How a call of the function with these arguments and receiver treats the slots of its caller. -/
structure KeepsToSlots (globals : Scope) (f : FunctionValue) (args : List Arg)
    (receiver : Option Value) (caller : Scope) (b b' : Builder) (added : List IR.Stmt) : Prop where
  /-- What the call became is at the end of the open block. Statements that are left out are in no
  task. -/
  block : b'.block.toList = b.block.toList ++ added
  tasks : b'.tasks = b.tasks
  /-- They write to slots that they make, and to those that the call was given. -/
  writes : ∀ slot, WritesTo added slot → Makes added slot ∨ slot ∈ slotsGiven args receiver
  /-- The slots that they make are not in the block, in a task, or in a block around, which is in
  hand. -/
  fresh : ∀ hand, Accounted hand b → ∀ slot, Makes added slot →
    slot ∉ idsOf b.block.toList ++ b.tasks.toList.flatMap Task.ids ++ hand
  /-- In the body, a parameter stands for a slot that was made for it if its argument is a value
  that was computed, and the value was put there. -/
  parameters : ∃ inner b₁, bindArgs (calleeScope globals caller receiver) f.routine.params args b = .ok inner b₁ ∧
    ∀ k p x o ty, f.routine.params[k]? = some p → args[k]? = some x → x.lowered = .value o ty →
      (∀ q ∈ f.routine.params.drop (k + 1), q.name.text ≠ p.name.text) →
      ∃ slot, inner.get? p.name.text = some (.place (.local slot ty [] ty)) ∧ b.nextId ≤ slot ∧
        Makes added slot ∧ ∃ i, op i (.localStore slot [] o) ∈ added

variable {settings : CompilerSettings} {scope caller : Scope} {templates : List (String × Value)}
  {depth : Nat} {f : FunctionValue} {args : List Arg} {receiver : Option Value} {span : Span}
  {l : Lowered}

theorem inliner_ok {globals : Scope}
    (h : inliner settings globals depth f args receiver caller span b = .ok l b') :
    ∃ inner b1, bindArgs (calleeScope globals caller receiver) f.routine.params args b
      = .ok inner b1 ∧ b1.block.toList <+: b'.block.toList := by
  rw [inliner_eq, callWith] at h
  obtain ⟨_, _, h0, h⟩ := bind_ok h
  cases h0
  dsimp only at h
  split at h
  · cases h
  split at h
  · cases h
  split at h
  · cases h
  obtain ⟨inner, b1, h1, h⟩ := bind_ok h
  obtain ⟨b2, h2, rfl⟩ := inFunction_ok (mapError_ok h)
  obtain ⟨b3, h3, rfl⟩ := inLoop_ok h2
  have hbody : Does { stack := f.identity :: b1.inlining, loop := some .function, part := .body f.routine.body }
      (lowerBody ⟨settings, f.origin, inliner settings globals (depth - 1)⟩ inner f.routine.body)
      (lowerBody ⟨settings, f.origin, inliner settings globals (depth - 1)⟩ inner f.routine.body) False _ :=
    does_lowerBody ⟨rfl, expands_inliner callClosed_all (fun _ _ _ _ => trivial) _, False.elim⟩
      Around.fits_function (fun _ => id) False.elim
  obtain ⟨ss, hblock, -⟩ := hbody.appends rfl ⟨rfl, rfl⟩ h3
  exact ⟨inner, b1, h1, ss, hblock.symm⟩

/-- A function that is expanded writes only to slots that are made for it or that it is given.

This holds of every call, whatever is lowered around it, and so of those that are expanded inside other calls. -/
theorem calls_keep_to_their_slots (hg : HostGives (fun v => v.isTransient = false) scope templates)
    (h : inliner settings scope.globals depth f args receiver caller span b = .ok l b') :
    ∃ added, KeepsToSlots scope.globals f args receiver caller b b' added := by
  have hglobals (S : StmtId → Prop) : ∀ p ∈ scope.globals.table, Among (OnSlots S) p.2.held := by
    intro p hp x hx i hi
    rw [slotless_of_given p.2 (hg.table p (List.mem_of_mem_filter hp)) x hx] at hi
    cases hi
  have hexpands (S : StmtId → Prop) : Expands (OnSlots S) b.inlining (inliner settings scope.globals depth)
      (inliner settings scope.globals depth) := expands_inliner callClosed_onSlots (hglobals S) depth
  -- The statements are found first, without asking for any slots, since the slots that count are
  -- those that they make.
  have hadded := (hexpands fun _ => True).does
    (σ := { stack := b.inlining, loop := b.loops.head?, held := _ }) rfl f args receiver caller span
  obtain ⟨added, hblock, htasks, -, hids⟩ := hadded.appends rfl ⟨rfl, rfl⟩ h
  refine ⟨added, hblock, htasks, fun slot hslot => ?_, fun hand hb slot hslot => ?_, ?_⟩
  · let S : StmtId → Prop := fun slot => Makes added slot ∨ slot ∈ slotsGiven args receiver
    have hargs : ∀ x ∈ args, Among (OnSlots S) x.lowered.held := fun x hx =>
      among_onSlots fun i hi => .inr (List.mem_append_left _ (List.mem_flatMap.2 ⟨x, hx, hi⟩))
    have hreceiver : ∀ v, receiver = some v → Among (OnSlots S) v.held := by
      rintro v rfl
      exact among_onSlots fun i hi => .inr (List.mem_append_right _ hi)
    have hcall := (hexpands S).calls
      { stack := b.inlining, loop := b.loops.head?, held := OnSlots S } True f args receiver
      caller span rfl rfl (fun _ => nofun) (fun _ => hargs) (fun _ => hreceiver) fun _ _ _ _ _ => nofun
    obtain ⟨ss, hss, -, hkeeps, -⟩ := hcall.appends rfl ⟨rfl, rfl⟩ h
    obtain rfl : added = ss := List.append_cancel_left (hblock.symm.trans hss)
    obtain ⟨i, o, ho, hwritten⟩ := hslot
    refine each_code.1 (hkeeps trivial (each_code.2 ?_)).2.1 i o ho slot hwritten slot rfl
    rintro j _ hj ty hint rfl _ ⟨⟩
    exact .inl ⟨ty, hint, hj⟩
  · -- Each id is given out once.
    have hnodup := (hids hand hb).nodup_iff.2 List.nodup_range
    have hmem : slot ∈ IR.Stmt.idsOf added := by
      obtain ⟨ty, hint, hslot⟩ := hslot
      exact List.mem_map.2 ⟨_, hslot, rfl⟩
    have honce := List.nodup_iff_count.1 hnodup slot
    simp only [Builder.held, hblock, htasks, IR.Stmt.idsOf_append, List.count_append] at honce
    have hpos := List.count_pos_iff.2 hmem
    intro hold
    have hpos' := List.count_pos_iff.2 hold
    simp only [List.count_append] at hpos'
    omega
  · obtain ⟨inner, b₁, hbind, hbody⟩ := inliner_ok h
    refine ⟨inner, b₁, hbind, fun k p x o ty hp hx hvalue hlast => ?_⟩
    obtain ⟨b₂, b₃, v, hv, hget, hnext, hbefore, hafter⟩ := get?_bindArgs hbind hp hx hlast
    rw [hvalue, bindArg_value] at hv
    cases hv
    obtain ⟨first, hfirst⟩ := hbefore
    obtain ⟨last, hlast⟩ := hafter.trans hbody
    -- The two statements for the argument stand between those of the arguments before it and
    -- everything after.
    have hsplit : added = first ++ [.op b₂.nextId (.alloca ty (hintOf p.name.text)),
        .op (b₂.nextId + 1) (.localStore b₂.nextId [] o)] ++ last := by
      apply (List.append_right_inj b.block.toList).1
      rw [← hblock, ← hlast]
      simp [Builder.withSlot, ← hfirst]
    refine ⟨b₂.nextId, hget, hnext, ⟨ty, hintOf p.name.text, ?_⟩, b₂.nextId + 1, ?_⟩
    · simp [hsplit, IR.Stmt.flattenAll, IR.Stmt.flatten]
    · simp [hsplit]

def twoVariables : Builder :=
  { nextId := 2, block := #[.op 0 (.alloca .i32 "a"), .op 1 (.alloca .i32 "b")] }

def firstAndSeven : List Arg :=
  [⟨.place (.local 0 .i32 [] .i32), CompileError.nowhere⟩, ⟨.value (.int 7) .i32, CompileError.nowhere⟩]

def writtenFor (source : String) : Option (List StmtId) :=
  match Routine.parse 0 source with
  | .ok r =>
    match inliner {} (Scope.globals {}) 1 ⟨"step", r, .kernel⟩ firstAndSeven none {}
      CompileError.nowhere twoVariables with
    | .ok _ b' => some (b'.block.toList.filterMap fun s => s.op?.bind Op.written?)
    | .error .. => none
  | .error _ => none

/-- A function that changes both of its parameters changes the variable it is given and a copy of
the number. -/
theorem calls_keep_to_first :
    writtenFor "(x, n) => \x7b n += 1; x += n \x7d" = some [2, 2, 0] ∧
      ∃ r l b', Routine.parse 0 "(x, n) => \x7b n += 1; x += n \x7d" = .ok r ∧
        inliner {} (Scope.globals {}) 1 ⟨"step", r, .kernel⟩ firstAndSeven none {}
          CompileError.nowhere twoVariables = .ok l b' ∧
        ∃ added, KeepsToSlots (Scope.globals {}) ⟨"step", r, .kernel⟩ firstAndSeven none {} twoVariables b' added := by
  have hwritten : writtenFor "(x, n) => \x7b n += 1; x += n \x7d" = some [2, 2, 0] := by decide +kernel
  have hg : HostGives (fun v => v.isTransient = false) {} [] := ⟨nofun, nofun, nofun⟩
  refine ⟨hwritten, ?_⟩
  unfold writtenFor at hwritten
  split at hwritten
  · split at hwritten
    · exact ⟨_, _, _, ‹_›, ‹_›, calls_keep_to_their_slots hg ‹_›⟩
    · cases hwritten
  · cases hwritten

end ArrayKernel.Lowering
