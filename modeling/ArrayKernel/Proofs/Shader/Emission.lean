import ArrayKernel.Proofs.Lowering.Discipline
import ArrayKernel.Proofs.Shader.Expression
import ArrayKernel.Shader.Task

/-!
# What writing a shader keeps

Every line, name and address stays free of attribute signs, and resources are numbered in the order
of their first use. `Writes` is what a step keeps.
-/

namespace ArrayKernel.Shader

open IR Surface Text List

variable {r : Resources} {t : Target} {α β : Type} {e : Emitter} {b hint name value : String}
  {ty : Ty} {a : Address} {access : LocalAccess} {w : Word} {id : StmtId} {indices : List Operand}
  {kind : AtomicKind} {xs : List α} {o : Operand}

/-! ## 1. States -/

def ResourceKind.Of (r : Resources) : ResourceKind → Prop
  | .field id => ∃ f, r.field f ∧ f.id = id
  | .texture id | .storageTexture id | .sampler id => ∃ x, r.texture x ∧ x.id = id
  | _ => True

def bindingOf (t : Target) (kind : ResourceKind) (number : Nat) : Binding :=
  { group := 0, binding := number, kind, access := (variableOf t kind).2, name := (variableOf t kind).1 }

def Numbered (r : Resources) (t : Target) (bs : List Binding) : Prop :=
  ∃ kinds : List ResourceKind, kinds.Nodup ∧ (∀ k ∈ kinds, k.Of r) ∧ bs = kinds.mapIdx fun i k => bindingOf t k i

def Slot.Clean : Slot → Prop
  | .variable name _ => Shader.Clean name
  | .shared .. => True

/-- What has been written is clean, and resources are bound in order. -/
structure Tidy (r : Resources) (t : Target) (e : Emitter) : Prop where
  lines : ∀ l ∈ e.lines, Clean l
  values : ∀ (id : StmtId) (x : String × Ty), e.values[id]? = some x → Clean x.1 ∧ x.2.isStruct = false
  ptrs : ∀ (id : StmtId) (x : Nat × Address), e.ptrs[id]? = some x → (∃ f, r.field f ∧ f.id = x.1) ∧ x.2.Clean
  slots : ∀ (id : StmtId) (s : Slot), e.slots[id]? = some s → s.Clean
  bindings : Numbered r t e.bindings

/-! ## 2. Steps -/

/-- The step keeps the state tidy, and its result meets the condition. -/
def Writes (r : Resources) (t : Target) (m : Emit α) (Q : α → Prop) : Prop :=
  ∀ e, Tidy r t e → Tidy r t (m t e).2 ∧ Q (m t e).1

namespace Writes

variable {Q : α → Prop} {f : α → Emit β} {R : β → Prop}

theorem pure {a : α} (h : Q a) : Writes r t (Pure.pure a) Q := fun _ he => ⟨he, h⟩

theorem bind {m : Emit α} (hm : Writes r t m Q) (hf : ∀ a, Q a → Writes r t (f a) R) :
    Writes r t (m >>= f) R := by
  intro e he
  obtain ⟨he', hq⟩ := hm e he
  exact hf _ hq _ he'

theorem get : Writes r t (MonadState.get : Emit Emitter) (Tidy r t) := fun _ he => ⟨he, he⟩

theorem read : Writes r t (MonadReader.read : Emit Target) (· = t) := fun _ he => ⟨he, rfl⟩

theorem update {f : Emitter → Emitter} (hf : ∀ e, Tidy r t e → Tidy r t (f e)) :
    Writes r t (modify f : Emit Unit) fun _ => True := fun e he => ⟨hf e he, trivial⟩

theorem put (he : Tidy r t e) : Writes r t (set e : Emit Unit) fun _ => True :=
  fun _ _ => ⟨he, trivial⟩

theorem mapM (hf : ∀ x ∈ xs, Writes r t (f x) R) :
    Writes r t (xs.mapM f) fun ys => ∀ y ∈ ys, R y := by
  induction xs with
  | nil => exact pure nofun
  | cons x xs ih =>
    rw [mapM_cons]
    refine (hf x (mem_cons_self ..)).bind fun y hy => ?_
    refine (ih fun x hx => hf x (mem_cons_of_mem _ hx)).bind fun ys hys => pure ?_
    rintro z (_ | ⟨_, hz⟩)
    · exact hy
    · exact hys z hz

theorem forM {f : α → Emit Unit} (hf : ∀ x ∈ xs, Writes r t (f x) fun _ => True) :
    Writes r t (xs.forM f) fun _ => True := by
  induction xs with
  | nil => exact pure trivial
  | cons x xs ih =>
    exact (hf x (mem_cons_self ..)).bind fun _ _ => ih fun y hy => hf y (mem_cons_of_mem _ hy)

end Writes

theorem clean_indentation (depth : Nat) : Clean (indentation depth) := .replicate _ rfl

theorem writes_line {text : String} (h : Clean text) : Writes r t (line text) fun _ => True := by
  refine .update fun e he => { he with lines := fun l hl => ?_ }
  rcases Array.mem_push.1 hl with hl | rfl
  · exact he.lines l hl
  · exact .append (clean_indentation _) h

theorem writes_indented {m : Emit Unit} (hm : Writes r t m fun _ => True) :
    Writes r t (indented m) fun _ => True := by
  refine (Writes.update fun e he => ?_).bind fun _ _ => hm.bind fun _ _ => .update fun e he => ?_
  · exact ⟨he.lines, he.values, he.ptrs, he.slots, he.bindings⟩
  · exact ⟨he.lines, he.values, he.ptrs, he.slots, he.bindings⟩

theorem over_word_nat (n : Nat) : Over isWordChar (toString n) :=
  over_nat (fun c hc => by simp [isWordChar, Char.isAlphanum, hc])

theorem over_word_variableOf (t : Target) (kind : ResourceKind) :
    Over isWordChar (variableOf t kind).1 := by
  cases kind with
  | field id =>
    refine .ite (.append (.literal rfl) (over_word_nat id)) ?_
    refine .append (.append (.append (.literal rfl) (over_word_nat id)) (.literal rfl)) ?_
    cases t.kernel.field? id with
    | none => exact .literal rfl
    | some f => exact over_word_hintOf
  | args | rets | shared => exact .literal rfl
  | texture id | storageTexture id | sampler id => exact .append (.literal rfl) (over_word_nat id)

theorem writes_resource (kind : ResourceKind) (h : kind.Of r) :
    Writes r t (resource kind) Clean := by
  refine Writes.get.bind fun e he => ?_
  obtain ⟨kinds, hnodup, hk, hbs⟩ := he.bindings
  split
  · rename_i b hb
    refine .pure ?_
    have hmem := mem_of_find?_eq_some hb
    rw [hbs] at hmem
    obtain ⟨i, hi, rfl⟩ := mem_mapIdx.1 hmem
    exact clean_of_word (over_word_variableOf t _)
  · rename_i hb
    refine Writes.read.bind fun t' ht => ?_
    subst ht
    refine (Writes.put ?_).bind fun _ _ => .pure (clean_of_word (over_word_variableOf _ _))
    have hnew : kind ∉ kinds := by
      intro hmem
      obtain ⟨i, hi, rfl⟩ := mem_iff_getElem.1 hmem
      have hbound : bindingOf t' kinds[i] i ∈ e.bindings := hbs ▸ mem_mapIdx.2 ⟨i, hi, rfl⟩
      exact find?_eq_none.1 hb _ hbound (decide_eq_true rfl)
    refine { he with bindings := ⟨kinds ++ [kind], ?_, fun k hmem => ?_, ?_⟩ }
    · refine nodup_append.2 ⟨hnodup, by simp, fun a ha b hb heq => hnew ?_⟩
      rwa [← mem_singleton.1 hb, ← heq]
    · rcases mem_append.1 hmem with hmem | hmem
      · exact hk k hmem
      · rwa [mem_singleton.1 hmem]
    · have hlen : e.bindings.length = kinds.length := by rw [hbs, length_mapIdx]
      rw [mapIdx_append, ← hbs, hlen]
      show _ = e.bindings ++ [bindingOf t' kind (0 + kinds.length)]
      rw [Nat.zero_add]
      rfl

/-! ## 3. Values -/

theorem writes_operand (o : Operand) : Writes r t (operand o) Clean := by
  unfold operand
  split
  · exact .pure clean_literal
  · rename_i id
    refine Writes.get.bind fun e he => .pure ?_
    cases hv : e.values[id]? with
    | none => exact clean_valueName id
    | some x => exact (he.values id x hv).1

theorem writes_indexText : Writes r t (indexText o) Clean := by
  unfold indexText
  split
  · split
    · exact .pure (clean_int _)
    · exact writes_operand _
  · exact .pure (clean_nat _)
  · exact writes_operand _

theorem writes_operandTy : Writes r t (operandTy o) fun ty => ty.isStruct = false := by
  unfold operandTy
  split
  · exact .pure rfl
  · rename_i id
    refine Writes.get.bind fun e he => .pure ?_
    cases hv : e.values[id]? with
    | none => rfl
    | some x => exact (he.values id x hv).2

theorem writes_condition (o : Operand) : Writes r t (condition o) Clean := by
  unfold condition
  split
  · exact .pure (.ite (.literal rfl) (.literal rfl))
  · refine writes_operandTy.bind fun ty hty => (writes_operand o).bind fun text htext => .pure ?_
    have htest : Clean (s!"{text} != {zero ty}") := .append (.append htext (.literal rfl)) (clean_zero hty)
    refine .ite htest (clean_applied (.literal rfl) fun x hx => ?_)
    rwa [mem_singleton.1 hx]

theorem tidy_insertValue (he : Tidy r t e) (hn : Clean name)
    (hty : ty.isStruct = false) : Tidy r t { e with values := e.values.insert id (name, ty) } := by
  refine { he with values := fun i x hx => ?_ }
  rw [Std.HashMap.getElem?_insert] at hx
  split at hx
  · cases hx
    exact ⟨hn, hty⟩
  · exact he.values i x hx

theorem writes_bindValue (id : StmtId) {expr : String} (hty : ty.isStruct = false)
    (h : Clean expr) : Writes r t (bindValue id ty expr) fun _ => True := by
  refine (writes_line (.fill₃ rfl (clean_valueName id) rfl (clean_ty hty) rfl h rfl)).bind fun _ _ => ?_
  exact .update fun e he => tidy_insertValue he (clean_valueName id) hty

theorem writes_declareIndex (id : StmtId) (h : Clean hint) :
    Writes r t (declareIndex id hint) Clean := by
  refine (Writes.update fun e he => ?_).bind fun _ _ => .pure (clean_varName id h)
  exact tidy_insertValue he (clean_varName id h) rfl

/-! ## 4. Words and slots -/

theorem writes_fieldWords? {ptr : StmtId} :
    Writes r t (fieldWords? ptr) fun w => ∀ word, w = some word → ∀ k, Clean (word k).target := by
  refine Writes.get.bind fun e he => ?_
  split
  · exact .pure nofun
  · rename_i f a hptr
    obtain ⟨hf, ha⟩ := he.ptrs ptr _ hptr
    refine (writes_resource (.field f) hf).bind fun name hname => Writes.read.bind fun _ _ => .pure ?_
    rintro word ⟨⟩ k
    exact clean_wordAt hname ha

theorem writes_sharedWords (ha : a.Clean) :
    Writes r t (sharedWords a) fun word => ∀ k, Clean (word k).target :=
  (writes_resource .shared trivial).bind fun _ hname => .pure fun _ => clean_wordAt hname ha

theorem Address.clean_foldl {f : Address → α → Address} (ha : a.Clean)
    (hf : ∀ x ∈ xs, ∀ a : Address, a.Clean → (f a x).Clean) : (xs.foldl f a).Clean := by
  induction xs generalizing a with
  | nil => exact ha
  | cons x xs ih => exact ih (hf x (mem_cons_self ..) a ha) fun y hy => hf y (mem_cons_of_mem _ hy)

theorem writes_fieldAddress {field : Nat} (hf : ∃ f, r.field f ∧ f.id = field) {offset : Operand} :
    Writes r t (fieldAddress id field indices offset) fun _ => True := by
  refine Writes.read.bind fun _ _ => ?_
  refine (Writes.mapM (R := fun x => Clean x.2.2) fun x _ => ?_).bind fun terms hterms => ?_
  · exact (writes_operand x.1).bind fun text htext => .pure htext
  extract_lets sum
  have hsum : sum.Clean := Address.clean_foldl Address.clean_const fun x hx a ha => Address.clean_add ha (hterms x hx)
  refine (writes_operand offset).bind fun text htext => ?_
  extract_lets sum'
  have hsum' : sum'.Clean := Address.clean_add hsum htext
  have hinsert : ∀ address : Address, address.Clean → ∀ e, Tidy r t e →
      Tidy r t { e with ptrs := e.ptrs.insert id (field, address) } := by
    intro address haddress e he
    refine { he with ptrs := fun i x hx => ?_ }
    rw [Std.HashMap.getElem?_insert] at hx
    split at hx
    · cases hx
      exact ⟨hf, haddress⟩
    · exact he.ptrs i x hx
  split
  · have hterms := Address.clean_dynamic hsum' ‹_›
    refine (writes_line (.fill₂ rfl (clean_valueName id) rfl hterms rfl)).bind fun _ _ => ?_
    refine Writes.update (hinsert _ fun s hs => ?_)
    rw [mem_singleton.1 hs]
    exact clean_valueName id
  · exact Writes.update (hinsert _ hsum')

def LocalAccess.Clean : LocalAccess → Prop
  | .expr text => Shader.Clean text
  | .row name _ r => Shader.Clean name ∧ Shader.Clean r
  | .words a => a.Clean

theorem writes_localAccess {slot : StmtId} :
    Writes r t (localAccess slot indices) LocalAccess.Clean := by
  refine (Writes.mapM fun o _ => writes_indexText).bind fun texts htexts => Writes.get.bind fun e he => ?_
  split
  · refine .pure (Address.clean_foldl Address.clean_const fun x hx a ha => Address.clean_add ha ?_)
    obtain ⟨-, hx⟩ := of_mem_zip hx
    exact htexts _ (of_mem_zip hx).2
  · rename_i name ty hslot
    have hname : Clean name := he.slots slot _ hslot
    split
    · exact .pure ⟨hname, htexts _ (mem_cons_self ..)⟩
    · exact .pure (clean_indexed₂ hname (htexts _ (by simp)) (htexts _ (by simp)))
    · exact .pure (clean_indexed hname (htexts _ (by simp)))
    · exact .pure hname
  · exact .pure (clean_valueName slot)

theorem writes_readLocal (ha : access.Clean) (hty : ty.isStruct = false) :
    Writes r t (readLocal access ty) Clean := by
  cases access with
  | expr text => exact .pure ha
  | row name cols r => exact .pure (clean_matrixRow ha.1 ha.2)
  | words a => exact (writes_sharedWords ha).bind fun _ hword => .pure (clean_readWords hty hword)

theorem writes_writeLocal (ha : access.Clean) (hv : Clean value) :
    Writes r t (writeLocal access ty value) fun ls => ∀ l ∈ ls, Clean l := by
  cases access with
  | expr text =>
    refine .pure fun l hl => ?_
    rw [mem_singleton.1 hl]
    exact .append (.append (.append ha (.literal rfl)) hv) (.literal rfl)
  | row name cols r =>
    refine .pure fun l hl => ?_
    obtain ⟨c, -, rfl⟩ := mem_map.1 hl
    have hplace : Clean (s!"{name}[{c}][{r}] = {value}") :=
      .append (.append (.append (.append (.append (.append ha.1 (.literal rfl)) (clean_nat c)) (.literal rfl)) ha.2)
        (.literal rfl)) hv
    split
    · exact .append (.append (.append hplace (.literal rfl)) (clean_nat c)) (.literal rfl)
    · exact .append hplace (.literal rfl)
  | words a => exact (writes_sharedWords ha).bind fun _ hword => .pure (clean_writeWords hv hword)

/-! ## 5. Read-modify-write -/

theorem writes_lines {ls : List String} (h : ∀ l ∈ ls, Clean l) :
    Writes r t (ls.forM line) fun _ => True :=
  .forM fun l hl => writes_line (h l hl)

theorem clean_shaderName (kind : AtomicKind) : Clean kind.shaderName := by
  cases kind <;> exact .append (.literal rfl) (.literal rfl)

theorem writes_exchangeLoop {s : Scalar} (hw : Clean w.target) (hv : Clean value) :
    Writes r t (exchangeLoop id w kind value s) fun _ => True := by
  have hn := clean_valueName id
  have hold : Clean (s!"{valueName id}_old") := .append hn (.literal rfl)
  refine (writes_line (.fill₂ rfl hn rfl (Word.clean_load hw) rfl)).bind fun _ _ => ?_
  refine (writes_line (.literal rfl)).bind fun _ _ => (writes_indented ?_).bind fun _ _ => writes_line (.literal rfl)
  refine (writes_line (.fill₂ rfl hn rfl ?_ rfl)).bind fun _ _ => ?_
  · exact clean_encode (clean_combine (clean_decode hold) hv)
  refine (writes_line (.fill₄ rfl hn rfl hw rfl hn rfl hn rfl)).bind fun _ _ => ?_
  refine (writes_line (.fill₁ rfl hn rfl)).bind fun _ _ => writes_line ?_
  exact .append (.append (.append hn (.literal rfl)) hn) (.literal rfl)

theorem writes_atomicWord (hw : Clean w.target) (hv : Clean value) (hty : ty.isStruct = false) :
    Writes r t (atomicWord id w kind value ty) fun _ => True := by
  unfold atomicWord
  extract_lets s
  split
  · refine (writes_bindValue id hty (clean_decode hw)).bind fun _ _ => writes_line ?_
    exact Word.clean_store hw (clean_encode (clean_combine (clean_valueName id) hv))
  · split
    · refine writes_bindValue id hty (clean_decode ?_)
      exact .append (.append (.append (.append (.append (clean_shaderName kind) (.literal rfl)) hw) (.literal rfl))
        (clean_encode hv)) (.literal rfl)
    · refine (writes_exchangeLoop hw hv).bind fun _ _ => writes_bindValue id hty (clean_decode ?_)
      exact .append (clean_valueName id) (.literal rfl)

theorem writes_emitAtomic {target : AtomicTarget} {value : Operand} (hty : ty.isStruct = false) :
    Writes r t (emitAtomic id target kind value ty) fun _ => True := by
  refine (writes_operand value).bind fun v hv => ?_
  split
  · refine writes_fieldWords?.bind fun w hw => ?_
    split
    · exact writes_atomicWord (hw _ rfl 0) hv hty
    · exact .pure trivial
  · refine writes_localAccess.bind fun access haccess => ?_
    split
    · exact (writes_sharedWords haccess).bind fun word hword => writes_atomicWord (hword 0) hv hty
    · refine (writes_readLocal haccess hty).bind fun text htext => (writes_bindValue id hty htext).bind fun _ _ => ?_
      refine (writes_writeLocal haccess (clean_combine (clean_valueName id) hv)).bind fun ls hls => ?_
      exact writes_lines hls

/-! ## 6. Statements -/

theorem writes_emitTexture {texture : Nat} (htex : ∃ x, r.texture x ∧ x.id = texture)
    {op : TextureOp} {coords : Operand} {value : Option Operand} (hty : ty.isStruct = false) :
    Writes r t (emitTexture id texture op coords value ty) fun _ => True := by
  refine (writes_operand coords).bind fun at_ hat => ?_
  split
  · refine (writes_resource (.texture texture) htex).bind fun tex hname => writes_bindValue id hty ?_
    exact .fill₂ rfl hname rfl hat rfl
  · refine (writes_resource (.texture texture) htex).bind fun tex hname => ?_
    refine (writes_resource (.sampler texture) htex).bind fun sampler hsampler => writes_bindValue id hty ?_
    exact .fill₃ rfl hname rfl hsampler rfl hat rfl
  · refine (writes_resource (.storageTexture texture) htex).bind fun tex hname => ?_
    split
    · refine (writes_operand _).bind fun v hv => writes_line ?_
      exact .fill₃ rfl hname rfl hat rfl hv rfl
    · refine (Writes.pure (clean_compose hty (forall_mem_nil _))).bind fun v hv => writes_line ?_
      exact .fill₃ rfl hname rfl hat rfl hv rfl

theorem writes_alloca (hty : ty.isStruct = false) (hh : Clean hint) :
    Writes r t (emitOp id (.alloca ty hint)) fun _ => True := by
  have hvar := clean_varName id hh
  refine Writes.get.bind fun e he => ?_
  split
  · refine (writes_line (.fill₂ rfl hvar rfl (clean_ty hty) rfl)).bind fun _ _ => ?_
    refine .update fun e he => { he with slots := fun i s hi => ?_ }
    rw [Std.HashMap.getElem?_insert] at hi
    split at hi
    · cases hi
      exact hvar
    · exact he.slots i s hi
  · exact .pure trivial

theorem writes_extract {value : Operand} (hty : ty.isStruct = false) :
    Writes r t (emitOp id (.extract value indices ty)) fun _ => True := by
  refine writes_operandTy.bind fun valueTy _ => (writes_operand value).bind fun v hv => ?_
  refine (Writes.mapM fun o _ => writes_indexText).bind fun texts htexts => ?_
  split
  · exact writes_bindValue id hty (clean_indexed hv (htexts _ (by simp)))
  · exact writes_bindValue id hty (clean_matrixRow hv (htexts _ (by simp)))
  · exact writes_bindValue id hty (clean_indexed₂ hv (htexts _ (by simp)) (htexts _ (by simp)))
  · exact writes_bindValue id hty hv

theorem writes_call {i : Intrinsic} (hi : i ∈ Intrinsic.table) {args : List Operand}
    {argTys : List Ty} (hty : ty.isStruct = false) :
    Writes r t (emitOp id (.call i args argTys ty)) fun _ => True := by
  refine (Writes.mapM fun o _ => writes_operand o).bind fun texts htexts => writes_bindValue id hty ?_
  have hcall := clean_render hi htexts
  refine .ite (clean_applied (clean_ty hty) fun x hx => ?_) hcall
  rwa [mem_singleton.1 hx]

theorem writes_emitOp (id : StmtId) (o : Op) (hs : Lowering.Sourced r o)
    (hty : ∀ ty ∈ o.types, ty.isStruct = false) : Writes r t (emitOp id o) fun _ => True := by
  cases o with
  | alloca ty hint =>
    obtain ⟨name, rfl⟩ := hs
    exact writes_alloca (hty ty (mem_cons_self ..)) (clean_of_word over_word_hintOf)
  | localLoad slot indices ty =>
    have hty := hty ty (mem_cons_self ..)
    refine writes_localAccess.bind fun access haccess => ?_
    exact (writes_readLocal haccess hty).bind fun text htext => writes_bindValue id hty htext
  | localStore slot indices value =>
    refine writes_localAccess.bind fun access haccess => ?_
    refine writes_operandTy.bind fun ty _ => (writes_operand value).bind fun v hv => ?_
    exact (writes_writeLocal haccess hv).bind fun ls hls => writes_lines hls
  | globalPtr field indices offset =>
    exact writes_fieldAddress hs
  | globalLoad ptr ty =>
    have hty := hty ty (mem_cons_self ..)
    refine writes_fieldWords?.bind fun w hw => ?_
    split
    · exact writes_bindValue id hty (clean_readWords hty (hw _ rfl))
    · exact writes_bindValue id hty (clean_zero hty)
  | globalStore ptr value =>
    refine writes_fieldWords?.bind fun w hw => ?_
    split
    · refine writes_operandTy.bind fun ty _ => (writes_operand value).bind fun v hv => ?_
      exact writes_lines (clean_writeWords hv (hw _ rfl))
    · exact .pure trivial
  | binary op lhs rhs operandTy ty =>
    have ho := hty operandTy (mem_cons_self ..)
    have hty := hty ty (mem_cons_of_mem _ (mem_cons_self ..))
    refine (writes_operand lhs).bind fun a ha => (writes_operand rhs).bind fun b hb => ?_
    have hbind := writes_bindValue (r := r) (t := t) id hty (clean_binaryExpr op ha hb ho hty)
    split
    · refine (Writes.update fun e he => ?_).bind fun _ _ => hbind
      exact ⟨he.lines, he.values, he.ptrs, he.slots, he.bindings⟩
    · exact hbind
  | unary op x ty =>
    have hty := hty ty (mem_cons_self ..)
    refine (writes_operand x).bind fun a ha => writes_operandTy.bind fun operandTy ho => ?_
    exact writes_bindValue id hty (clean_unaryExpr ha ho hty)
  | compose parts ty =>
    have hty := hty ty (mem_cons_self ..)
    refine (Writes.mapM fun o _ => writes_operand o).bind fun texts htexts => ?_
    exact writes_bindValue id hty (clean_compose hty htexts)
  | extract value indices ty => exact writes_extract (hty ty (mem_cons_self ..))
  | loopControl c => cases c <;> exact writes_line (.literal rfl)
  | atomic target kind value ty => exact writes_emitAtomic (hty ty (mem_cons_self ..))
  | call i args argTys ty => exact writes_call hs (hty ty (mem_cons_self ..))
  | texture id' op coords value ty =>
    exact writes_emitTexture hs (hty ty (mem_cons_self ..))
  | ret value ty =>
    refine (writes_resource .rets trivial).bind fun rets hrets => (writes_operand value).bind fun v hv => ?_
    exact writes_lines (clean_writeWords hv fun k => clean_wordAt hrets Address.clean_const)
  | random ty =>
    refine (Writes.update fun e he => ?_).bind fun _ _ => writes_bindValue id (hty ty (mem_cons_self ..)) (.literal rfl)
    exact ⟨he.lines, he.values, he.ptrs, he.slots, he.bindings⟩
  | argLoad index ty =>
    refine (writes_resource .args trivial).bind fun args hargs => ?_
    exact writes_bindValue id (hty ty (mem_cons_self ..)) (clean_decode (clean_indexed hargs (clean_nat index)))

/-- What is asked of the statements of a task: they are made from the resources, and no value is a
structure. -/
def writable (r : Resources) : Check where
  op _ o := Lowering.Sourced r o ∧ ∀ ty ∈ o.types, ty.isStruct = false
  loop _ _ _ hint := ∃ name, hint = hintOf name
  cond _ _ := True

theorem clean_forHeader {e : String} (hn : Clean name) (hb : Clean b) (he : Clean e) :
    Clean (s!"for (var {name}: i32 = {b}; {name} < {e}; {name} = {name} + 1i) \x7b") :=
  .append (.append (.append (.append (.fill₄ rfl hn rfl hb rfl hn rfl he rfl) hn) (.literal rfl)) hn) (.literal rfl)

mutual

theorem writes_emitStmt {d : Defs} : (s : IR.Stmt) → (writable r).stmt d s →
    Writes r t (emitStmt s) fun _ => True
  | .op id o, h => writes_emitOp id o h.1 h.2
  | .rangeFor id first last body hint, h => by
    obtain ⟨⟨name, rfl⟩, hbody⟩ := h
    unfold emitStmt
    refine (writes_declareIndex id (clean_of_word over_word_hintOf)).bind fun index hindex => ?_
    refine (writes_operand first).bind fun b hb => (writes_operand last).bind fun e he => ?_
    refine (writes_line ?_).bind fun _ _ => (writes_indented (writes_emitBlock body hbody)).bind fun _ _ =>
      writes_line (.literal rfl)
    exact clean_forHeader hindex hb he
  | .while_ id condBody cond body, h => by
    refine (writes_line (.literal rfl)).bind fun _ _ => (writes_indented ?_).bind fun _ _ => writes_line (.literal rfl)
    refine (writes_emitBlock condBody h.1).bind fun _ _ => (writes_condition cond).bind fun test htest => ?_
    exact (writes_line (.fill₁ rfl htest rfl)).bind fun _ _ => writes_emitBlock body h.2.2
  | .ifElse id cond yes no, h => by
    refine (writes_condition cond).bind fun test htest => (writes_line (.fill₁ rfl htest rfl)).bind fun _ _ => ?_
    refine (writes_indented (writes_emitBlock yes h.2.1)).bind fun _ _ => ?_
    split
    · refine (writes_line (.literal rfl)).bind fun _ _ => ?_
      exact (writes_indented (writes_emitBlock no h.2.2)).bind fun _ _ => writes_line (.literal rfl)
    · exact writes_line (.literal rfl)

theorem writes_emitBlock {d : Defs} : (ss : List IR.Stmt) → (writable r).block d ss →
    Writes r t (emitBlock ss) fun _ => True
  | [], _ => .pure trivial
  | s :: ss, h => by
    unfold emitBlock
    exact (writes_emitStmt s h.1).bind fun _ _ => writes_emitBlock ss h.2

end

/-! ## 7. Tasks -/

theorem writes_emitSeed (task : Task) : Writes r t (emitSeed task) fun _ => True := by
  unfold emitSeed
  extract_lets draws
  split
  · refine (Writes.update fun e he => ?_).bind fun _ _ => ?_
    · exact ⟨he.lines, he.values, he.ptrs, he.slots, he.bindings⟩
    · refine (writes_resource .args trivial).bind fun args hargs => Writes.read.bind fun _ _ => writes_line ?_
      exact .fill₃ rfl hargs rfl (clean_nat _) rfl (clean_nat _) rfl
  · exact .pure trivial

theorem clean_strideHeader {e : String} (hn : Clean name) (hb : Clean b) (he : Clean e)
    (stride : Nat) :
    Clean (s!"for (var {name}: i32 = {b} + i32(gid.x); {name} < {e}; {name} = {name} + {stride}i) \x7b") :=
  .append (.append (.append (.append (.append (.append (.fill₄ rfl hn rfl hb rfl hn rfl he rfl) hn) (.literal rfl)) hn)
    (.literal rfl)) (clean_nat stride)) (.literal rfl)

theorem writes_emitParallel {loop : ParallelLoop} {body : List IR.Stmt}
    (h : (writable r).task { loop := some loop, body }) (stride : UInt32) :
    Writes r t (emitParallel loop body stride) fun _ => True := by
  obtain ⟨hpro, ⟨name, hname⟩, hbody⟩ := h
  refine (writes_emitBlock _ hpro).bind fun _ _ => ?_
  rw [hname]
  refine (writes_declareIndex _ (clean_of_word over_word_hintOf)).bind fun index hindex => ?_
  refine (writes_operand _).bind fun b hb => (writes_operand _).bind fun e he => ?_
  refine (writes_line (clean_strideHeader hindex hb he _)).bind fun _ _ => ?_
  exact (writes_indented (writes_emitBlock body hbody)).bind fun _ _ => writes_line (.literal rfl)

theorem tidy_start : Tidy r t { slots := initialSlots t.kernel } := by
  refine ⟨nofun, by simp, by simp, ?_, [], nodup_nil, nofun, rfl⟩
  -- only shared slots are there before the first statement
  have hshared : ∀ (ss : List SharedSlot) (m : Std.HashMap StmtId Slot),
      (∀ (id : StmtId) (s : Slot), m[id]? = some s → s.Clean) → ∀ (id : StmtId) (s : Slot),
        (ss.foldl (fun m s => m.insert s.slot (.shared s.offset s.ty)) m)[id]? = some s → s.Clean := by
    intro ss
    induction ss with
    | nil => exact fun m hm => hm
    | cons x ss ih =>
      intro m hm
      refine ih _ fun id s hs => ?_
      rw [Std.HashMap.getElem?_insert] at hs
      split at hs
      · cases hs
        trivial
      · exact hm id s hs
  exact hshared _ _ (by simp)

theorem ofTask_eq (k : Kernel) (settings : CompilerSettings) (index : Nat) {task : Task}
    (h : (writable r).task task) :
    ∃ t parallel e, t.kernel = k ∧ Tidy r t e
      ∧ (ofTask k settings index task).text = assemble t parallel (ofTask k settings index task).workgroupSize e
      ∧ (ofTask k settings index task).bindings = e.bindings
      ∧ (ofTask k settings index task).workgroupSize = if task.isParallel then settings.workgroupSize else 1 := by
  obtain ⟨loop, body⟩ := task
  cases loop with
  | none =>
    have hw := (writes_emitSeed (t := { kernel := k, index, usage := .ofTask { body } }) { body }).bind
      fun _ _ => writes_emitBlock body h
    exact ⟨_, false, _, rfl, (hw _ tidy_start).1, rfl, rfl, rfl⟩
  | some loop =>
    have hw := fun stride => (writes_emitSeed
      (t := { kernel := k, index, usage := .ofTask { loop := some loop, body } })
      { loop := some loop, body }).bind fun _ _ => writes_emitParallel h stride
    exact ⟨_, true, _, rfl, (hw _ _ tidy_start).1, rfl, rfl, rfl⟩

end ArrayKernel.Shader
