import ArrayKernel.Proofs.Lowering.Slots

/-!
# Steps that only compute

Most rules call no function and open no block. What holds of elementary steps and is kept by
sequences holds of all such rules, by one induction over `Tidy`. Those that write to no slot are
`Quiet`.
-/

namespace ArrayKernel

open List

/-- Whether the statement may stand where a loop can be left or not, and continued or not. A result
may not. -/
def IR.Op.proper (leave next : Bool) : IR.Op → Bool
  | .loopControl .break_ => leave
  | .loopControl .continue_ => next
  | .ret .. => false
  | _ => true

def IR.Op.written? : IR.Op → Option IR.StmtId
  | .localStore slot _ _ => some slot
  | .atomic (.local slot _) _ _ _ => some slot
  | _ => none

def IR.Op.quiet (o : IR.Op) : Bool := o.proper false false && o.written?.isNone

namespace Lowering

open IR Surface

variable {v : Value} {p : Place} {l : Lowered} {scope : Scope}

/-- Steps of which the value is a `V` if `P` holds. The slots that they make count as `S`, and then
the slots that they write to are `S` as well. -/
inductive Tidy (S : Held → Prop) : {α : Type} → Prop → Lower α → (α → Prop) → Prop
  | of {α : Type} {P : Prop} {V : α → Prop} (a : α) (h : P → V a) : Tidy S P (Pure.pure a) V
  | fail {α : Type} {P : Prop} {V : α → Prop} (span : Span) (cause : Cause) : Tidy S P (failAt span cause : Lower α) V
  | bind {α β : Type} {P : Prop} {V : α → Prop} {W : β → Prop} {m : Lower α} {f : α → Lower β}
    (hm : Tidy S P m V) (hf : ∀ a, Tidy S (P ∧ V a) (f a) W) : Tidy S P (m >>= f) W
  | imp {α : Type} {P P' : Prop} {V W : α → Prop} {m : Lower α} (hm : Tidy S P m V) (hP : P' → P)
    (hV : ∀ a, P' → V a → W a) : Tidy S P' m W
  | emit {P : Prop} (o : Op) (ho : o.proper false false) (hw : P → ∀ slot, o.written? = some slot →
    S (.slot slot)) : Tidy S P (emit o) fun i => ∀ ty hint, o = .alloca ty hint → S (.slot i)
  | touchField {P : Prop} (f : FieldInfo) : Tidy S P (touchField f) fun _ => True
  | touchTexture {P : Prop} (t : TextureInfo) : Tidy S P (touchTexture t) fun _ => True

variable {α β : Type} {S : Held → Prop} {P : Prop} {V : α → Prop} {W : β → Prop} {span : Span}
  {i : Intrinsic} {o flat : Operand} {is dims : List Operand} {ty : Ty} {xs : List TypedOperand}
  {x y : TypedOperand} {name : String} {op : BinOp} {ps : List Surface.Param} {g : α → Lower β}
  {s : Scalar}

structure Quiet (m : Lower α) (V : α → Prop := fun _ => True) : Prop where
  tidy (S : Held → Prop) (P : Prop) : Tidy S P m V

/-! ## 1. Sequences -/

namespace Tidy

variable {m : Lower α} {f : α → Lower β}

theorem along {Q : Prop} (hm : Tidy S P m V) : Tidy S (P ∧ Q) m V := hm.imp And.left fun _ _ => id

theorem andThen (hm : Tidy S P m V) (hf : ∀ a, Tidy S P (f a) W) : Tidy S P (m >>= f) W :=
  hm.bind fun a => (hf a).along

theorem drop (hm : Tidy S P m V) : Tidy S P m fun _ => True := hm.imp id fun _ _ _ => trivial

theorem discard (hm : Tidy S P m V) : Tidy S P (Functor.discard m) fun _ => True := by
  show Tidy S P (Function.const α () <$> m) _
  exact hm.andThen fun _ => .of _ fun _ => trivial

theorem alloca (ty : Ty) (hint : String) :
    Tidy S P (Lowering.emit (.alloca ty hint)) fun i => S (.slot i) :=
  (Tidy.emit _ rfl fun _ _ h => by cases h).imp id fun _ _ h => h ty hint rfl

theorem mapM {xs : List α} (hg : ∀ x ∈ xs, Tidy S P (g x) W) :
    Tidy S P (xs.mapM g) fun ys => ∀ y ∈ ys, W y := by
  induction xs with
  | nil => exact .of _ fun _ => forall_mem_nil _
  | cons x xs ih =>
    rw [mapM_cons]
    obtain ⟨hx, hxs⟩ := forall_mem_cons.1 hg
    refine hx.bind fun y => (ih hxs).along.bind fun ys => .of _ fun h => ?_
    exact forall_mem_cons.2 ⟨h.1.2, h.2⟩

theorem forM {g : α → Lower Unit} (hg : ∀ x, Tidy S P (g x) fun _ => True) (xs : List α) :
    Tidy S P (xs.forM g) fun _ => True := by
  induction xs with
  | nil => exact .of _ fun _ => trivial
  | cons x xs ih => exact (hg x).andThen fun _ => ih

end Tidy

namespace Quiet

variable {m : Lower α} {f : α → Lower β}

theorem of (a : α) (h : V a) : Quiet (Pure.pure a) V := ⟨fun _ _ => .of a fun _ => h⟩

theorem pure (a : α) : Quiet (Pure.pure a) := .of a trivial

theorem fail (span : Span) (cause : Cause) : Quiet (failAt span cause) V :=
  ⟨fun _ _ => .fail span cause⟩

theorem bind (hm : Quiet m V) (hf : ∀ a, Quiet (f a) W) : Quiet (m >>= f) W :=
  ⟨fun S P => (hm.tidy S P).bind fun a => (hf a).tidy S _⟩

theorem before (hm : Quiet m V) (hf : ∀ a, Tidy S P (f a) W) : Tidy S P (m >>= f) W :=
  (hm.tidy S P).andThen hf

theorem bare {m : Lower Lowered} (hm : Quiet m (·.held = [])) : Tidy S P m (Among S ·.held) :=
  (hm.tidy S P).imp id fun _ _ => among_of_eq_nil

theorem touchField (f : FieldInfo) : Quiet (touchField f) := ⟨fun _ _ => .touchField f⟩

theorem touchTexture (t : TextureInfo) : Quiet (touchTexture t) := ⟨fun _ _ => .touchTexture t⟩

theorem emit (o : Op) (ho : o.quiet) : Quiet (emit o) := by
  obtain ⟨hproper, hwrites⟩ := Bool.and_eq_true_iff.1 ho
  refine ⟨fun S P => (Tidy.emit o hproper fun _ slot h => ?_).drop⟩
  rw [h] at hwrites
  cases hwrites

theorem typed (span : Span) (x : Except TypeError α) : Quiet (typed span x) := by
  cases x with
  | ok a => exact .pure a
  | error e => exact .fail ..

theorem emitValue (o : Op) (ho : o.quiet) : Quiet (emitValue o) :=
  (Quiet.emit o ho).bind fun _ => .pure _

theorem mapM (hg : ∀ x, Quiet (g x)) (xs : List α) : Quiet (xs.mapM g) := by
  induction xs with
  | nil => exact .pure _
  | cons x xs ih =>
    rw [mapM_cons]
    exact (hg x).bind fun _ => ih.bind fun _ => .pure _

theorem flatMapM {g : α → Lower (List β)} (hg : ∀ x, Quiet (g x)) (xs : List α) :
    Quiet (xs.flatMapM g) := by
  induction xs with
  | nil => exact .pure _
  | cons x xs ih =>
    rw [flatMapM_cons]
    exact (hg x).bind fun _ => ih.bind fun _ => .pure _

theorem foldlM {g : β → α → Lower β} (hg : ∀ y x, Quiet (g y x)) (xs : List α) (y : β) :
    Quiet (xs.foldlM g y) := by
  induction xs generalizing y with
  | nil => exact .pure _
  | cons x xs ih =>
    exact (hg y x).bind ih

end Quiet

/-! ## 2. Values and operators -/

theorem quiet_ofValue : Quiet (ofValue v) := by
  unfold ofValue
  split
  · exact .pure _
  · exact .pure _
  · exact (Quiet.emitValue _ rfl).bind fun _ => .pure _
  · exact .pure _

theorem tidy_ofValue (hv : P → Among S v.held) : Tidy S P (ofValue v) (Among S ·.held) := by
  unfold ofValue
  split
  · exact .of _ hv
  · exact .of _ fun _ => among_nil
  · exact (Quiet.emitValue _ rfl).before fun _ => .of _ fun _ => among_nil
  · exact .of _ hv

theorem quiet_castScalar {t : Scalar} : Quiet (castScalar o s t) := by
  unfold castScalar
  by_cases h : s = t
  · rw [if_pos h]
    exact .pure o
  · rw [if_neg h]
    cases o.const? with
    | some l => exact .pure _
    | none => exact .emitValue _ rfl

theorem quiet_coerce {source target : Ty} : Quiet (coerce o source target span) := by
  unfold coerce
  split
  · exact .pure o
  split
  · exact quiet_castScalar
  · exact quiet_castScalar.bind fun _ => .emitValue _ rfl
  · exact quiet_castScalar.bind fun _ => .emitValue _ rfl
  · split
    · exact .emitValue _ rfl
    · exact .fail ..
  · exact .fail ..

theorem quiet_folded {l r : Operand} {operandTy : Ty} :
    Quiet (folded op l r operandTy ty span) := by
  unfold folded
  split
  · split
    · exact .pure _
    · exact .fail ..
  · exact .pure _

theorem quiet_binary : Quiet (binary op x y span) := by
  refine (Quiet.typed span _).bind fun t => ?_
  split
  · refine quiet_coerce.bind fun l => quiet_coerce.bind fun r => ?_
    exact (Quiet.emitValue _ rfl).bind fun _ => .pure _
  · refine quiet_coerce.bind fun l => quiet_coerce.bind fun r => ?_
    refine quiet_folded.bind fun v => ?_
    split
    · exact .pure _
    · exact (Quiet.emitValue _ rfl).bind fun _ => .pure _

theorem quiet_unaryOp {op : UnaryOp} : Quiet (unaryOp op o ty) := by
  unfold unaryOp
  split
  · split
    · exact .pure _
    · exact .emitValue _ rfl
  · exact .emitValue _ rfl

theorem quiet_unary {op : UnOp} : Quiet (unary op x span) := by
  refine (Quiet.typed span _).bind fun ty => ?_
  cases op with
  | plus => exact .pure _
  | neg | not | bitNot => exact quiet_unaryOp.bind fun _ => .pure _

theorem quiet_intBinary {x y : Operand} : Quiet (intBinary op x y) := by
  refine quiet_folded.bind fun v => ?_
  cases v with
  | some v => exact .pure _
  | none =>
    -- Each remaining case keeps one of the operands or emits the operation.
    repeat' split
    all_goals first | exact .pure _ | exact .emitValue _ rfl

theorem quiet_extract : Quiet (extract o ty is) :=
  (Quiet.emitValue _ rfl).bind fun _ => .pure _

theorem quiet_components : Quiet (components o ty) := by
  cases ty with
  | scalar s => exact .pure _
  | vector s n => exact .mapM (fun i => quiet_extract.bind fun _ => .pure _) _
  | matrix r c => exact .flatMapM (fun i => .mapM (fun j => quiet_extract.bind fun _ => .pure _) _) _
  | struct ms => exact .pure _

/-! ## 3. Places -/

theorem quiet_globalPtr {f : FieldInfo} {offset : Operand} :
    Quiet (globalPtr f is offset) := .emit _ rfl

theorem quiet_load : Quiet (load p span) := by
  unfold load
  split
  · exact .fail ..
  cases p with
  | «local» slot slotTy is ty => exact (Quiet.emitValue _ rfl).bind fun _ => .pure _
  | global f is offset ty =>
    exact quiet_globalPtr.bind fun _ => (Quiet.emitValue _ rfl).bind fun _ => .pure _

theorem quiet_rvalue : Quiet (rvalue l span) := by
  unfold rvalue
  split
  · exact .pure _
  · exact quiet_load
  · exact .pure _
  · exact (Quiet.emitValue _ rfl).bind fun _ => .pure _
  · exact .fail ..

theorem quiet_intOperand : Quiet (intOperand l span) := by
  refine quiet_rvalue.bind fun ⟨o, ty⟩ => ?_
  dsimp only
  split
  · exact .pure _
  · exact quiet_castScalar
  · split
    · exact .pure _
    · exact .fail ..
  · exact .fail ..

theorem tidy_allocSlot {hint : String} : Tidy S P (allocSlot l hint span) (Among S ·.held) := by
  refine quiet_rvalue.before fun _ => (Tidy.alloca ..).bind fun slot => ?_
  refine (Tidy.emit _ rfl fun h _ hslot => ?_).andThen fun _ => .of _ fun h => forall_mem_singleton.2 h.2
  cases hslot
  exact h.2

theorem tidy_memberPlace : Tidy S P (memberPlace p name) (Among S ·.held) := by
  refine (Quiet.typed _ _).before fun (start, ty) => ?_
  cases p with
  | «local» slot slotTy is ty => exact .fail ..
  | global f is offset ty => exact quiet_intBinary.before fun _ => .of _ fun _ => among_nil

theorem tidy_memberPlaces {ms : Members} :
    Tidy S P (memberPlaces p ms) fun ps => ∀ q ∈ ps, Among S q.2.held := by
  induction ms using Members.rec (motive_1 := fun _ => True) with
  | nil => exact .of _ fun _ => forall_mem_nil _
  | cons name ty rest _ ih =>
    unfold memberPlaces
    refine tidy_memberPlace.bind fun _ => ih.along.bind fun _ => .of _ fun h => ?_
    exact forall_mem_cons.2 ⟨h.1.2, h.2⟩
  | _ => trivial

theorem tidy_loadRecord? :
    Tidy S P (loadRecord? p) fun es? => ∀ es, es? = some es → Among S es.held := by
  unfold loadRecord?
  split
  · refine tidy_memberPlaces.bind fun ps => .of _ fun h es hes => ?_
    cases hes
    exact held_entriesOf (forall_mem_map.2 h.2)
  · exact .of _ fun _ _ h => by cases h

theorem tidy_subPlace (hp : P → Among S p.held) :
    Tidy S P (subPlace p is span) (Among S ·.held) := by
  unfold subPlace
  extract_lets narrow
  have hnarrow (ty : Ty) {step : Lower Operand} (hstep : Quiet step) : Tidy S P (narrow ty step) (Among S ·.held) := by
    dsimp only [narrow]
    split
    · exact .of _ hp
    · exact hstep.before fun _ => quiet_intBinary.before fun _ => .of _ fun _ => among_nil
  split
  · exact hnarrow _ (.pure _)
  · exact hnarrow _ quiet_intBinary
  · exact hnarrow _ (quiet_intBinary.bind fun _ => quiet_intBinary)
  · exact .fail ..

theorem quiet_structEntries : Quiet (structEntries p l span) := by
  unfold structEntries
  split
  · exact .pure _
  · exact (Quiet.mapM (fun (_, v) => quiet_ofValue.bind fun _ => .pure _) _).bind fun _ => .pure _
  · split
    · exact ⟨fun _ _ => tidy_loadRecord?.andThen fun _ => .of _ fun _ => trivial⟩
    · exact .fail ..
  · exact .fail ..

theorem tidy_assign (hp : P → Among S p.held) : Tidy S P
      (do
        let (o, source) ← rvalue l span
        let o ← coerce o source ty span
        match p with
        | .local slot _ is _ => discard <| emit (.localStore slot is o)
        | .global f is offset _ => do
          let ptr ← globalPtr f is offset
          discard <| emit (.globalStore ptr o)) fun _ => True := by
  refine quiet_rvalue.before fun _ => quiet_coerce.before fun _ => ?_
  cases p with
  | «local» slot slotTy is _ =>
    refine (Tidy.emit _ rfl fun h _ hslot => ?_).discard
    cases hslot
    exact hp h _ (mem_singleton_self _)
  | global f is offset _ => exact quiet_globalPtr.before fun _ => ((Quiet.emit _ rfl).tidy S P).discard

mutual

theorem tidy_storer {P : Prop} {p : Place} (hp : P → Among S p.held) {l : Lowered} {span : Span} :
    (ty : Ty) → Tidy S P (storer ty p l span) fun _ => True
  | .scalar s | .vector s n | .matrix r c => by unfold storer; exact tidy_assign hp
  | .struct ms => by
    refine quiet_structEntries.before fun entries => ?_
    refine .forM (fun name => ?_) _
    split
    · rename_i v assign _ hassign
      refine tidy_memberPlace.bind fun q => ?_
      exact tidy_memberStorers And.right ms hassign
    · exact .fail ..

theorem tidy_memberStorers {P : Prop} {p : Place} (hp : P → Among S p.held) {l : Lowered}
    {span : Span} {name : String} {assign : Storer} :
    (ms : Members) → (memberStorers ms).lookup name = some assign → Tidy S P (assign p l span) fun _ => True
  | .nil, h => by cases h
  | .cons k ty rest, h => by
    rw [memberStorers, lookup_cons] at h
    by_cases hk : name == k
    · simp only [hk, Option.some.injEq] at h
      exact h ▸ tidy_storer hp ty
    · simp only [hk] at h
      exact tidy_memberStorers hp rest h

end

theorem tidy_store (hp : P → Among S p.held) : Tidy S P (store p l span) fun _ => True :=
  tidy_storer hp p.ty

theorem tidy_atomic (hp : P → Among S p.held) {kind : AtomicKind} :
    Tidy S P (atomic p kind l span) fun _ => True := by
  unfold atomic
  split
  · split
    · exact .fail ..
    · refine quiet_rvalue.before fun _ => quiet_coerce.before fun _ => ?_
      extract_lets finish
      have hfinish (t : AtomicTarget) (ht : P → ∀ slot is, t = .local slot is → S (.slot slot)) :
          Tidy S P (finish t) fun _ => True := by
        refine Tidy.andThen (V := fun _ => True) ((Tidy.emit _ rfl fun h slot hslot => ?_).andThen
          fun _ => .of _ fun _ =>
          trivial) fun _ => .of _ fun _ => trivial
        cases t with
        | «global» => cases hslot
        | «local» slot is =>
          cases hslot
          exact ht h slot is rfl
      cases p with
      | «local» slot slotTy is _ =>
        refine hfinish _ fun h _ _ ht => ?_
        cases ht
        exact hp h _ (mem_singleton_self _)
      | global f is offset _ => exact quiet_globalPtr.before fun _ => hfinish _ fun _ _ _ ht => by cases ht
  · exact .fail ..

mutual

theorem tidy_copier {p : Place} {name : String} {span : Span} :
    (ty : Ty) → Tidy S P (copier ty p name span) (Among S ·.held)
  | .scalar s => by unfold copier; exact tidy_allocSlot.bind fun _ => .of _ And.right
  | .vector s n
  | .matrix r c => by unfold copier; exact tidy_allocSlot.bind fun _ => .of _ And.right
  | .struct ms => by
    refine tidy_memberPlaces.andThen fun places => ?_
    refine (Tidy.mapM fun ⟨k, q⟩ _ => ?_).bind fun _ =>
      .of _ fun h => held_recordOf h.2
    dsimp only
    split
    · rename_i copy hcopy
      exact (tidy_memberCopiers ms hcopy).bind fun _ => .of _ And.right
    · exact .fail ..

theorem tidy_memberCopiers {p : Place} {name : String} {span : Span} {k : String} {copy : Copier} :
    (ms : Members) → (memberCopiers ms).lookup k = some copy → Tidy S P (copy p name span) (Among S ·.held)
  | .nil, h => by cases h
  | .cons k' ty rest, h => by
    rw [memberCopiers, lookup_cons] at h
    by_cases hk : k == k'
    · simp only [hk, Option.some.injEq] at h
      exact h ▸ tidy_copier ty
    · simp only [hk] at h
      exact tidy_memberCopiers rest h

end

mutual

theorem tidy_bindDecl {P : Prop} {kind : DeclKind} {name : String} {span : Span} :
    (l : Lowered) → (P → Among S l.held) → Tidy S P (bindDecl kind name span l) (Among S ·.held)
  | .static v, h => by
    unfold bindDecl
    split
    · exact .of v h
    · exact tidy_allocSlot.bind fun _ => .of _ And.right
  | .record es, h => by unfold bindDecl; exact (tidy_bindMembers es h).bind fun _ => .of _ And.right
  | .place p, _ => by unfold bindDecl; exact tidy_copier p.ty
  | .void, _ => by unfold bindDecl; exact .fail ..
  | .value o ty, _ => by unfold bindDecl; exact tidy_allocSlot.bind fun _ => .of _ And.right

theorem tidy_bindMembers {P : Prop} {name : String} {span : Span} :
    (es : Entries) → (P → Among S es.held) → Tidy S P (bindMembers name span es) (Among S ·.held)
  | .nil, _ => by unfold bindMembers; exact .of _ fun _ => among_nil
  | .cons k l rest, h => by
    refine (tidy_bindDecl l fun hP => (forall_mem_append.1 (h hP)).1).bind fun _ => ?_
    refine (tidy_bindMembers rest fun hP => (forall_mem_append.1 (h hP.1)).2).bind fun _ => ?_
    exact .of _ fun h => forall_mem_append.2 ⟨h.1.2, h.2⟩

end

mutual

theorem tidy_bindArg {P : Prop} {name : String} {span : Span} :
    (l : Lowered) → (P → Among S l.held) → Tidy S P (bindArg name span l) (Among S ·.held)
  | .static v, h => by unfold bindArg; exact .of _ h
  | .record es, h => by unfold bindArg; exact (tidy_bindArgMembers es h).bind fun _ => .of _ And.right
  | .place p, h => by unfold bindArg; exact .of _ h
  | .void, _ => by unfold bindArg; exact .fail ..
  | .value o ty, _ => by unfold bindArg; exact tidy_allocSlot.bind fun _ => .of _ And.right

theorem tidy_bindArgMembers {P : Prop} {span : Span} :
    (es : Entries) → (P → Among S es.held) → Tidy S P (bindArgMembers span es) (Among S ·.held)
  | .nil, _ => by unfold bindArgMembers; exact .of _ fun _ => among_nil
  | .cons k l rest, h => by
    refine (tidy_bindArg l fun hP => (forall_mem_append.1 (h hP)).1).bind fun _ => ?_
    refine (tidy_bindArgMembers rest fun hP => (forall_mem_append.1 (h hP.1)).2).bind fun _ => ?_
    exact .of _ fun h => forall_mem_append.2 ⟨h.1.2, h.2⟩

end

/-! ## 4. Parts of values -/

theorem quiet_swizzleValue {picks : List Nat} :
    Quiet (swizzleValue o ty s picks) (·.held = []) := by
  refine (Quiet.mapM (fun i => quiet_extract.bind fun _ => .pure _) picks).bind fun parts => ?_
  split
  · exact .of _ rfl
  · exact (Quiet.emitValue _ rfl).bind fun _ => .of _ rfl

theorem tidy_member (hl : P → Among S l.held) :
    Tidy S P (member l name span) (Among S ·.held) := by
  unfold member
  split
  · split
    · exact tidy_ofValue fun h => held_get? (hl h) ‹_›
    · exact .fail ..
  · split
    · exact .of _ fun h => held_entry (hl h) ‹_›
    · exact .fail ..
  · split
    · exact .fail ..
    · split
      · exact .of _ fun _ => among_nil
      · exact .of _ fun _ => among_nil
  · split
    · exact tidy_memberPlace.bind fun _ => .of _ And.right
    · split
      · exact .fail ..
      · exact (tidy_subPlace hl).bind fun _ => .of _ And.right
      · exact quiet_load.before fun _ => quiet_swizzleValue.bare
    · exact .fail ..
  · split
    · exact .fail ..
    · exact quiet_swizzleValue.bare
  · exact .fail ..
  · exact .fail ..

theorem quiet_indexOperands : Quiet (indexOperands l span) := by
  have hone : Quiet (return [← intOperand l span]) :=
    quiet_intOperand.bind fun _ => .pure _
  unfold indexOperands
  extract_lets spread
  have hspread (s : Scalar) : Quiet (spread s) :=
    quiet_rvalue.bind fun _ => quiet_components.bind fun _ => .mapM (fun _ => quiet_intOperand) _
  split
  · exact .mapM (fun _ => quiet_intOperand) _
  · exact hspread _
  · split
    · exact hspread _
    · exact hone
  · exact hone

theorem quiet_indexValue :
    Quiet (indexValue o ty is span) (·.held = []) := by
  have hselected : Quiet
      (do
        let (o, ty) ← extract o ty is
        return Lowered.value o ty) (·.held = []) := quiet_extract.bind fun _ => .of _ rfl
  unfold indexValue
  split
  · exact hselected
  · exact hselected
  · exact hselected
  · exact .fail ..

theorem held_staticIndex {vs : List Literal} {is : List Int} (h : staticIndex? vs ty is = some v) :
    v.held = [] := by
  unfold staticIndex? at h
  split at h
  · obtain ⟨l, -, rfl⟩ := Option.map_eq_some_iff.1 h
    rfl
  · split at h <;> cases h
    rfl
  · split at h
    · obtain ⟨l, -, rfl⟩ := Option.map_eq_some_iff.1 h
      rfl
    · cases h
  · cases h

theorem tidy_index (hl : P → Among S l.held) :
    Tidy S P (index l is span) (Among S ·.held) := by
  unfold index
  split
  · split
    · exact .fail ..
    · exact (Quiet.touchField _).before fun _ => .of _ fun _ => among_nil
  · exact (tidy_subPlace hl).bind fun _ => .of _ And.right
  · split
    · split
      · exact .of _ fun _ => among_of_eq_nil (held_staticIndex ‹_›)
      · exact .fail ..
    · exact quiet_rvalue.before fun _ => quiet_indexValue.bare
  · exact quiet_indexValue.bare
  · exact .fail ..
  · exact .fail ..

theorem held_staticArray {items : List Value} (h : staticArray? items = .ok (some v)) :
    v.held = [] := by
  unfold staticArray? at h
  simp only [bind, Except.bind] at h
  split at h
  · split at h <;> cases h
    rfl
  · split at h
    · split at h <;> cases h
      rfl
    · cases h
  · cases h

theorem quiet_arrayOf {items : List Arg} : Quiet (arrayOf items span) (·.held = []) := by
  unfold arrayOf
  extract_lets rest
  have hvalue : Quiet (rest none) (·.held = []) := by
    refine (Quiet.mapM (fun _ => quiet_rvalue) items).bind fun values => ?_
    split
    · exact .fail ..
    · refine (Quiet.typed ..).bind fun elem => (Quiet.typed ..).bind fun ty => ?_
      refine (Quiet.mapM (fun x => ?_) _).bind fun _ => (Quiet.emitValue _ rfl).bind fun _ => .of _ rfl
      dsimp only
      split
      · exact quiet_coerce
      · exact .fail ..
    · refine (Quiet.typed ..).bind fun ty => ?_
      refine (Quiet.mapM (fun x => ?_) _).bind fun _ => (Quiet.emitValue _ rfl).bind fun _ => .of _ rfl
      dsimp only
      split
      · exact quiet_coerce.bind fun _ => quiet_components
      · exact .fail ..
    · exact .fail ..
  split
  · rename_i vs _
    cases hstatic : staticArray? vs with
    | error e =>
      show Quiet (failAt span (.ofTypeError e)) _
      exact .fail ..
    | ok v? =>
      cases v? with
      | none => exact hvalue
      | some v => exact .of _ (held_staticArray hstatic)
  · exact hvalue

/-! ## 5. Built-in operations -/

theorem quiet_sumOf : Quiet (sumOf i x span) (·.held = []) := by
  refine quiet_components.bind fun parts => ?_
  cases parts with
  | nil => exact .fail ..
  | cons first rest => exact (Quiet.foldlM (fun _ _ => quiet_binary.bind fun _ => .pure _) rest first).bind fun _ => .of _ rfl

theorem quiet_outerProduct : Quiet (outerProduct i x y span) (·.held = []) := by
  unfold outerProduct
  split
  · refine (Quiet.typed ..).bind fun ty => quiet_coerce.bind fun a => quiet_coerce.bind fun b => ?_
    refine quiet_components.bind fun rows => quiet_components.bind fun cols => ?_
    refine (Quiet.flatMapM (fun r => ?_) rows).bind fun _ => (Quiet.emitValue _ rfl).bind fun _ => .of _ rfl
    exact .mapM (fun c => quiet_binary.bind fun _ => .pure _) cols
  · exact .fail ..

theorem quiet_concat : Quiet (concat i xs span) (·.held = []) := by
  refine (Quiet.mapM (fun x => ?_) xs).bind fun scalars => ?_
  · dsimp only
    split
    · exact .pure _
    · exact .pure _
    · exact .fail ..
  · refine (Quiet.mapM (fun x => ?_) xs).bind fun parts => ?_
    · exact quiet_components.bind fun _ => .mapM (fun _ => quiet_coerce) _
    · exact (Quiet.typed ..).bind fun _ => (Quiet.emitValue _ rfl).bind fun _ => .of _ rfl

theorem quiet_convert {op : UnaryOp} : Quiet (convert i op x span) (·.held = []) := by
  refine (Quiet.typed ..).bind fun sig => ?_
  split
  · exact .of _ rfl
  · exact quiet_unaryOp.bind fun _ => .of _ rfl

theorem quiet_callOf : Quiet (callOf i xs span) (·.held = []) := by
  refine (Quiet.typed ..).bind fun sig => ?_
  exact (Quiet.mapM (fun _ => quiet_coerce) _).bind fun _ => (Quiet.emitValue _ rfl).bind fun _ => .of _ rfl

theorem quiet_mathOf : Quiet (mathOf i xs span) (·.held = []) := by
  unfold mathOf
  split
  · exact quiet_binary.bind fun _ => .of _ rfl
  · exact quiet_sumOf
  · exact quiet_outerProduct
  · exact quiet_concat
  · exact quiet_convert
  · exact quiet_convert
  · exact quiet_callOf

theorem quiet_textureAccess {op : TextureOp} {tex coords : Arg} {value : Option Arg} :
    Quiet (textureAccess i op s tex coords value) (·.held = []) := by
  unfold textureAccess
  split
  · split
    · exact .fail ..
    extract_lets texel withCoords
    have hcoords (ty : Ty) : Quiet (withCoords ty) (·.held = []) := by
      refine quiet_rvalue.bind fun _ => quiet_coerce.bind fun c => ?_
      extract_lets access
      have haccess (v : Option Operand) : Quiet (access v) (·.held = []) :=
        (Quiet.touchTexture _).bind fun _ => (Quiet.emit _ rfl).bind fun _ => .of _ (by split <;> rfl)
      cases value with
      | some v => exact quiet_rvalue.bind fun _ => quiet_coerce.bind fun _ => haccess _
      | none => exact haccess _
    split
    · exact hcoords _
    · exact (Quiet.typed ..).bind hcoords
  · exact .fail ..

/-- Only an atomic operation writes to a slot, that of its first argument. -/
theorem tidy_builtin {args : List Arg} (hargs : P → ∀ a ∈ args, Among S a.lowered.held) :
    Tidy S P (builtin i args span) (Among S ·.held) := by
  unfold builtin
  split
  · exact .fail ..
  split
  · rename_i a _ _
    split
    · exact .of _ fun h => held_static? (hargs h a (mem_singleton_self a)) ‹_›
    · exact .fail ..
  · rename_i target value _ _
    have htarget (h : P) := hargs h target (mem_cons_self ..)
    split
    · rename_i p hp
      rw [hp] at htarget
      exact (tidy_atomic htarget).andThen fun _ => .of _ fun _ => among_nil
    · exact .fail ..
  · exact (Quiet.emitValue _ rfl).before fun _ => .of _ fun _ => among_nil
  · split
    · exact quiet_textureAccess.bare
    · exact (Quiet.mapM (fun _ => quiet_rvalue) _).before fun _ => quiet_mathOf.bare

/-! ## 6. Names, loop indices and parameters -/

abbrev ScopeAmong (S : Held → Prop) : Scope → Prop := ScopeAll fun v => Among S v.held

theorem tidy_named {v : Option Value} (hv : P → ∀ w, v = some w → Among S w.held) :
    Tidy S P (named v name span) (Among S ·.held) := by
  cases v with
  | some v => exact tidy_ofValue fun h => hv h v rfl
  | none => exact .fail ..

theorem quiet_intLiteral {n : Nat} : Quiet (intLiteral n span) (·.held = []) := by
  unfold intLiteral
  split
  · exact .of _ rfl
  split
  · exact .of _ rfl
  · exact .fail ..

theorem tidy_memberValue (hl : P → Among S l.held) :
    Tidy S P (memberValue l span) (Among S ·.held) := by
  unfold memberValue
  split
  · refine tidy_loadRecord?.bind fun es => ?_
    split
    · exact .of _ fun h => h.2 _ rfl
    · exact quiet_load.before fun _ => .of _ fun _ => among_nil
  · exact .of _ hl

theorem held_indexValueOf : (indexValueOf o).held = [] := by
  cases o <;> rfl

theorem tidy_bindIndex {binding : Binding} {parts : List Operand} (hs : P → ScopeAmong S scope) :
    Tidy S P (bindIndex binding parts scope span) (ScopeAmong S) := by
  have hinsert {s : Scope} (hs : ScopeAmong S s) (name : String) {v : Value} (hv : v.held = []) :
      ScopeAmong S (s.insert name v) := hs.insert (among_of_eq_nil hv) name
  unfold bindIndex
  split
  · split
    · exact .of _ fun h => hinsert (hs h) _ held_indexValueOf
    · refine (Quiet.typed ..).before fun ty => ?_
      split
      · exact .of _ fun h => hinsert (hs h) _ rfl
      · exact (Quiet.emitValue _ rfl).before fun _ => .of _ fun h => hinsert (hs h) _ rfl
  · rename_i ns
    split
    · exact .fail ..
    · refine .of _ fun h => ?_
      replace hs := hs h
      generalize ns.zip parts = bound
      induction bound generalizing scope with
      | nil => exact hs
      | cons x bound ih => exact ih (hinsert hs _ held_indexValueOf)

theorem quiet_unflattenTail : Quiet (unflattenTail flat dims) := by
  induction dims with
  | nil => exact .pure _
  | cons dim dims ih =>
    unfold unflattenTail
    exact ih.bind fun _ => quiet_intBinary.bind fun _ => quiet_intBinary.bind fun _ => .pure _

theorem quiet_unflatten : Quiet (unflatten flat dims) := by
  cases dims with
  | nil => exact .pure _
  | cons dim dims => exact quiet_unflattenTail.bind fun _ => .pure _

theorem tidy_bindArgs (hs : P → ScopeAmong S scope) {as : List Arg}
    (has : P → ∀ a ∈ as, Among S a.lowered.held) :
    Tidy S P (bindArgs scope ps as) (ScopeAmong S) := by
  induction ps generalizing P scope as with
  | nil => unfold bindArgs; exact .of _ hs
  | cons p ps ih =>
    cases as with
    | nil => exact .of _ hs
    | cons a as =>
      refine (tidy_bindArg _ fun h => has h a (mem_cons_self ..)).bind fun v => ?_
      exact ih (fun h => (hs h.1).insert h.2 _) fun h x hx => has h.1 x (mem_cons_of_mem _ hx)

theorem tidy_declareFunction {ctx : Context} {r : Routine} (hs : P → ScopeAmong S scope)
    (hr : P → S (.routine r)) : Tidy S P (declareFunction ctx scope r span) (ScopeAmong S) := by
  unfold declareFunction
  split
  · exact .of _ fun h => (hs h).insert (v := .function _) (forall_mem_singleton.2 (hr h)) _
  · exact .fail ..

theorem quiet_paramTy (ascription : Option Name) : Quiet (paramTy ascription) := by
  unfold paramTy
  split
  · exact .pure _
  · split
    · exact .pure _
    · exact .fail ..

theorem tidy_bindParams {templates : List (String × Value)} {word : Nat}
    (hs : P → ScopeAmong S scope) (ht : P → ∀ p ∈ templates, Among S p.2.held) :
    Tidy S P (bindParams templates scope word ps) fun x => ScopeAmong S x.2 := by
  induction ps generalizing scope word with
  | nil => exact .of _ hs
  | cons p ps ih =>
    unfold bindParams
    dsimp only
    split
    · split
      · rename_i v hv
        obtain ⟨before, after, rfl, -⟩ := lookup_eq_some_iff.1 hv
        exact ih fun h => (hs h).insert (ht h (_, v) (mem_append_right _ (mem_cons_self ..))) _
      · exact .fail ..
    · refine (quiet_paramTy _).before fun ty => ?_
      exact (ih fun h => (hs h).insert among_nil _).bind fun _ => .of _ And.right

end Lowering

end ArrayKernel
