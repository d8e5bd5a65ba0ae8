import ArrayKernel.Proofs.Shader.Declarations
import ArrayKernel.Proofs.Shader.Execution

/-!
# The lines of slots

A slot is a variable of the shader, or it has words in the buffer of shared slots. This module says
which lines are written for a store to a part of a slot and for a load of one, as actions:
`lines_store` and `lines_load`.
-/

namespace ArrayKernel.Shader

open IR List

variable {t : Target} {e : Emitter} {name : String} {part ty : Ty} {access : LocalAccess}
  {s : StmtId} {is : List Subscript} {o : Operand} {x : LinearIndex} {v : Term} {k : Nat}

/-! ## 1. Access to a variable -/

/-- How a part of a variable is reached, by the texts of the indices. -/
def variableAccess (name : String) (ty : Ty) (texts : List String) : LocalAccess :=
  match ty, texts with
  | .matrix _ c, [r] => .row name c.toNat r
  | .matrix .., [r, c] => .expr s!"{name}[{c}][{r}]"
  | _, [i] => .expr s!"{name}[{i}]"
  | _, _ => .expr name

theorem localAccess_variableAccess {slot : StmtId} (h : e.slots[slot]? = some (.variable name ty))
    (t : Target) (is : List Operand) :
    localAccess slot is t e = (variableAccess name ty (is.map fun i => (indexText i t e).1), e) := by
  simp only [localAccess, run_bind, mapM_state t e (indexText_state t e) is,
    mapM_results (indexText_state t e), run_get, h]
  generalize is.map (fun i => (indexText i t e).1) = texts
  cases ty with
  | matrix rows cols => rcases texts with _ | ⟨r, _ | ⟨c, _ | ⟨x, xs⟩⟩⟩ <;> rfl
  | _ => rcases texts with _ | ⟨i, _ | ⟨x, xs⟩⟩ <;> rfl

def LocalAccess.Through (name : String) : LocalAccess → Prop
  | .expr text => text = name ∨ ∃ path, text = name ++ "[" ++ path
  | .row var _ _ => var = name
  | .words _ => False

theorem through_variableAccess (name : String) (ty : Ty) (texts : List String) :
    (variableAccess name ty texts).Through name := by
  have hone : ∀ i, LocalAccess.Through name (.expr (name ++ "[" ++ i ++ "]")) := fun i =>
    .inr ⟨i ++ "]", by simp only [String.append_assoc]⟩
  have htwo : ∀ r c, LocalAccess.Through name (.expr (name ++ "[" ++ c ++ "][" ++ r ++ "]")) := fun r c =>
    .inr ⟨c ++ "][" ++ r ++ "]", by simp only [String.append_assoc]⟩
  cases ty with
  | matrix rows cols =>
    rcases texts with _ | ⟨r, _ | ⟨c, _ | ⟨x, xs⟩⟩⟩
    · exact .inl rfl
    · exact rfl
    · exact htwo r c
    · exact .inl rfl
  | _ =>
    rcases texts with _ | ⟨i, _ | ⟨x, xs⟩⟩
    · exact .inl rfl
    · exact hone i
    · exact .inl rfl

def WrittenThrough (t : Target) (e : Emitter) (id : StmtId) (access : LocalAccess) : Op → Prop
  | .localLoad s is ty =>
    (emitStmt (.op id (.localLoad s is ty)) t e).2.lines.toList = e.lines.toList
      ++ [indentation e.depth ++ s!"let {valueName id}: {ty.shaderText} = {(readLocal access ty t e).1};"]
  | .localStore s is value =>
    (emitStmt (.op id (.localStore s is value)) t e).2.lines.toList = e.lines.toList
      ++ (writeLocal access (operandTy value t e).1 (operand value t e).1 t e).1.map (indentation e.depth ++ ·)
  | .atomic target kind value ty =>
    (emitStmt (.op id (.atomic target kind value ty)) t e).2.lines.toList = e.lines.toList
      ++ [indentation e.depth ++ s!"let {valueName id}: {ty.shaderText} = {(readLocal access ty t e).1};"]
      ++ (writeLocal access ty (combine kind (valueName id) (operand value t e).1) t e).1.map (indentation e.depth ++ ·)
  | _ => False

theorem LocalAccess.Through.local_eq (h : access.Through name) (t : Target) (e e' : Emitter)
    (ty : Ty) (value : String) : readLocal access ty t e = ((readLocal access ty t e').1, e)
      ∧ writeLocal access ty value t e = ((writeLocal access ty value t e').1, e) := by
  cases access with
  | words a => cases h
  | _ => exact ⟨rfl, rfl⟩

theorem writtenThrough (h : access.Through name) (id : StmtId) {o : Op} {is : List Operand}
    {n : Nat} (ho : slotPart? t e o = some (s, is, n)) (ha : localAccess s is t e = (access, e)) :
    WrittenThrough t e id access o := by
  have hvalue : ∀ ty expr, (bindValue id ty expr t e).2.lines.toList
      = e.lines.toList ++ [indentation e.depth ++ s!"let {valueName id}: {ty.shaderText} = {expr};"] := fun ty expr =>
    lines_line _ t e
  cases o with
  | localLoad s is ty =>
    cases ho
    simp only [WrittenThrough, emitStmt, emitOp, run_bind, ha]
    rw [(h.local_eq t e e ty "").1]
    exact hvalue ty _
  | localStore s is value =>
    cases ho
    simp only [WrittenThrough, emitStmt, emitOp, run_bind, ha, operandTy_state, operand_state]
    rw [(h.local_eq t e e _ _).2]
    exact lines_forM
  | atomic target kind value ty =>
    cases target with
    | global f p => cases ho
    | «local» s is =>
      cases ho
      -- the value is bound, and then written in terms of its name
      have hboth : ((do
          bindValue id ty (← readLocal access ty)
          (← writeLocal access ty (combine kind (valueName id) (operand value t e).1)).forM
            line : Emit Unit) t e).2.lines.toList
            = e.lines.toList ++ [indentation e.depth ++ s!"let {valueName id}: {ty.shaderText} = {(readLocal access ty t e).1};"]
              ++ (writeLocal access ty (combine kind (valueName id) (operand value t e).1) t
                e).1.map (indentation e.depth ++ ·) := by
        simp only [run_bind]
        rw [(h.local_eq t e e ty "").1, (h.local_eq t (bindValue id ty _ t e).2 e ty _).2, lines_forM]
        rw [hvalue]
        rfl
      simp only [WrittenThrough, emitStmt, emitOp, emitAtomic, run_bind, ha, operand_state]
      cases access with
      | words a => cases h
      | expr text | row var cols r => exact hboth
  | _ => cases ho

/-! ## 2. Operands -/

def subscript (t : Target) (e : Emitter) : Operand → Subscript
  | .const l => .literal l
  | .stmt id => .name (operand (.stmt id) t e).1

def valueTerm (t : Target) (e : Emitter) : Operand → Term
  | .const l => .literal l
  | .stmt id => .name (operand (.stmt id) t e).1

theorem text_subscript : (subscript t e o).text = (indexText o t e).1 := by
  match o with
  | .stmt _ | .const (.f32 _) | .const (.u32 _) => rfl
  | .const (.i32 v) =>
    simp only [subscript, Subscript.text, indexText]
    split <;> rfl

theorem text_valueTerm : (valueTerm t e o).text = (operand o t e).1 := by
  cases o <;> rfl

theorem map_text_subscript {is : List Operand} :
    (is.map (subscript t e)).map Subscript.text = is.map fun i => (indexText i t e).1 := by
  rw [map_map]
  exact map_congr_left fun o _ => text_subscript

/-! ## 3. Actions on a variable -/

/-- The assignments to a part of a variable. A row is scattered over the columns. -/
def assignPart (name : String) (ty : Ty) (is : List Subscript) (v : Term) : List Action :=
  match ty, is with
  | .matrix _ c, [i] => (List.range c.toNat).map fun j => .assign name [.number j, i] (.term (.item v (.number j)))
  | .matrix .., [i, j] => [.assign name [j, i] (.term v)]
  | _, [i] => [.assign name [i] (.term v)]
  | _, _ => [.assign name [] (.term v)]

/-- The value of a part of a variable. A row is gathered from the columns. -/
def readPart (name : String) (ty : Ty) (is : List Subscript) : Formula :=
  match ty, is with
  | .matrix _ c, [i] =>
    .make (.vector .f32 c) ((List.range c.toNat).map fun j => .item (.item (.name name) (.number j)) i)
  | .matrix .., [i, j] => .term (.item (.item (.name name) j) i)
  | _, [i] => .term (.item (.name name) i)
  | _, _ => .term (.name name)

theorem text_item_item (e : Term) (i j : Subscript) :
    (Term.item (.item e i) j).text = e.text ++ "[" ++ i.text ++ "][" ++ j.text ++ "]" := by
  have hmiddle : "][" = "]" ++ "[" := rfl
  rw [Term.text_item, Term.text_item, hmiddle]
  simp only [String.append_assoc]

theorem text_assignPart (hpart : ty.select is.length = some part) :
    (writeLocal (variableAccess name ty (is.map Subscript.text)) part v.text t e).1
      = (assignPart name ty is v).map Action.text := by
  rcases is with _ | ⟨i, _ | ⟨j, _ | ⟨l, is⟩⟩⟩
  · cases ty <;> rfl
  · cases ty with
    | scalar s | struct ms => cases hpart
    | vector s n =>
      show [name ++ "[" ++ i.text ++ "]" ++ " = " ++ v.text ++ ";"]
        = [(Term.item (.name name) i).text ++ " = " ++ v.text ++ ";"]
      rfl
    | matrix r c =>
      cases hpart
      simp only [assignPart, map_map]
      apply map_congr_left
      intro k _
      show name ++ "[" ++ toString k ++ "][" ++ i.text ++ "] = " ++ v.text ++ "[" ++ toString k ++ "];"
        = (Term.item (.item (.name name) (.number k)) i).text ++ " = " ++ (Term.item v (.number k)).text ++ ";"
      have hend : "];" = "]" ++ ";" := rfl
      have hmid : "] = " = "]" ++ " = " := rfl
      rw [text_item_item, Term.text_item, hend, hmid]
      simp only [String.append_assoc]
      rfl
  · cases ty with
    | scalar s | struct ms | vector s n => cases hpart
    | matrix r c =>
      show [name ++ "[" ++ j.text ++ "][" ++ i.text ++ "]" ++ " = " ++ v.text ++ ";"]
        = [(Term.item (.item (.name name) j) i).text ++ " = " ++ v.text ++ ";"]
      rw [text_item_item]
      rfl
  · cases ty <;> cases hpart

theorem text_readPart (hpart : ty.select is.length = some part) (t : Target) (e : Emitter) :
    (readLocal (variableAccess name ty (is.map Subscript.text)) part t e).1 = (readPart name ty is).text := by
  rcases is with _ | ⟨i, _ | ⟨j, _ | ⟨l, is⟩⟩⟩
  · cases ty <;> rfl
  · cases ty with
    | scalar s | struct ms => cases hpart
    | vector s n => rfl
    | matrix r c =>
      have hty : s!"vec{c.toNat}<f32>" = (Ty.vector .f32 c).shaderText := by
        show "vec" ++ toString c.toNat ++ "<f32>" = "vec" ++ toString c.toNat ++ "<" ++ "f32" ++ ">"
        simp only [String.append_assoc]
        rfl
      show matrixRow name c.toNat i.text = applied _ _
      rw [matrixRow, hty, map_map]
      refine congrArg (applied _) (map_congr_left fun k _ => ?_)
      exact (text_item_item (.name name) (.number k) i).symm
  · cases ty with
    | scalar s | struct ms | vector s n => cases hpart
    | matrix r c => exact (text_item_item (.name name) j i).symm
  · cases ty <;> cases hpart

/-! ## 4. Actions on words -/

def componentTerm (v : Term) (ty : Ty) (k : Nat) : Term :=
  match ty with
  | .vector .. => .item v (.number k)
  | .matrix _ c => .item (.item v (.number (k % c.toNat))) (.number (k / c.toNat))
  | _ => v

def encoded (e : Term) : Scalar → Term
  | .i32 => e
  | _ => .bitcast .i32 e

def decoded (e : Term) : Scalar → Term
  | .i32 => e
  | s => .bitcast s e

def composed (ty : Ty) (parts : List Term) : Formula :=
  match ty with
  | .scalar s => .term (parts.head?.getD (.literal ((Literal.i32 0).cast s)))
  | .vector .. => .make ty parts
  | .matrix r c => .make ty (byColumn r.toNat c.toNat parts)
  | .struct _ => .make ty []

def storeWords (x : LinearIndex) (ty : Ty) (v : Term) : List Action :=
  (List.range ty.size).map fun k => .store (x.shift k) (encoded (componentTerm v ty k) (wordScalar ty))

def loadWords (x : LinearIndex) (ty : Ty) : Formula :=
  composed ty ((List.range ty.size).map fun k => decoded (.load (x.shift k)) (wordScalar ty))

theorem text_componentTerm : (componentTerm v ty k).text = componentOf v.text ty k := by
  cases ty with
  | matrix r c => exact text_item_item v _ _
  | _ => rfl

theorem text_encoded {e : Term} {s : Scalar} : (encoded e s).text = encode e.text s := by
  cases s <;> rfl

theorem text_decoded {e : Term} {s : Scalar} : (decoded e s).text = decode e.text s := by
  cases s <;> rfl

theorem map_byColumn {α β : Type} (f : α → β) (rows cols : Nat) (parts : List α) :
    byColumn rows cols (parts.map f) = (byColumn rows cols parts).map f := by
  simp only [byColumn, map_flatMap, map_filterMap, getElem?_map]

theorem text_composed {parts : List Term} :
    (composed ty parts).text = compose ty (parts.map Term.text) := by
  cases ty with
  | scalar s => cases parts <;> rfl
  | vector s n => rfl
  | matrix r c =>
    show applied _ ((byColumn r.toNat c.toNat parts).map Term.text) = applied _
      (byColumn r.toNat c.toNat (parts.map Term.text))
    rw [map_byColumn]
  | struct ms => rfl

theorem text_load : (Term.load (x.shift k)).text = (temporaries x.address k).load := by
  show "atomicLoad(&global_tmps[" ++ (x.shift k).address.word 0 ++ "])"
    = "atomicLoad(&" ++ ("global_tmps[" ++ x.address.word k ++ "]") ++ ")"
  have hbegin : "atomicLoad(&global_tmps[" = "atomicLoad(&" ++ "global_tmps[" := rfl
  have hend : "])" = "]" ++ ")" := rfl
  rw [LinearIndex.word_shift x k, hbegin, hend]
  simp only [String.append_assoc]

theorem text_store {e : Term} :
    (Action.store (x.shift k) e).text = (temporaries x.address k).store e.text := by
  show "atomicStore(&global_tmps[" ++ (x.shift k).address.word 0 ++ "], " ++ e.text ++ ");"
    = "atomicStore(&" ++ ("global_tmps[" ++ x.address.word k ++ "]") ++ ", " ++ e.text ++ ");"
  have hbegin : "atomicStore(&global_tmps[" = "atomicStore(&" ++ "global_tmps[" := rfl
  have hmiddle : "], " = "]" ++ ", " := rfl
  rw [LinearIndex.word_shift x k, hbegin, hmiddle]
  simp only [String.append_assoc]

theorem text_storeWords :
    writeWords ty v.text (temporaries x.address) = (storeWords x ty v).map Action.text := by
  rw [writeWords, storeWords, map_map]
  apply map_congr_left
  intro k _
  rw [Function.comp_apply, text_store, text_encoded, text_componentTerm]

theorem text_loadWords : readWords ty (temporaries x.address) = (loadWords x ty).text := by
  rw [readWords, loadWords, text_composed, map_map]
  refine congrArg (compose ty) (map_congr_left fun k _ => ?_)
  rw [Function.comp_apply, text_decoded, text_load]

/-! ## 5. Both homes -/

/-- Where a slot is: in a variable, or in words from an offset on. -/
inductive Home where
  | variable (name : String)
  | words (offset : Nat)

namespace Home

def slot (ty : Ty) : Home → Slot
  | .variable name => .variable name ty
  | .words offset => .shared offset ty

/-- The lines of a store to a part of a slot. -/
def store (t : Target) (e : Emitter) (ty part : Ty) (is : List Operand) (o : Operand) :
    Home → List Action
  | .variable name => assignPart name ty (is.map (subscript t e)) (valueTerm t e o)
  | .words offset => storeWords (slotIndex t e offset ty is) part (valueTerm t e o)

/-- What a load of a part of a slot reads. -/
def load (t : Target) (e : Emitter) (ty part : Ty) (is : List Operand) : Home → Formula
  | .variable name => readPart name ty (is.map (subscript t e))
  | .words offset => loadWords (slotIndex t e offset ty is) part

end Home

section Emitted

variable (hb : Bound t e) {s : StmtId} {ty part : Ty} {home : Home}
  (hs : e.slots[s]? = some (home.slot ty)) {is : List Operand}
  (hpart : ty.select is.length = some part)
include hb hs hpart

theorem lines_store (id : StmtId) (ho : (operandTy o t e).1 = part) :
    (emitStmt (.op id (.localStore s is o)) t e).2.lines.toList = e.lines.toList
      ++ (home.store t e ty part is o).map fun a => indentation e.depth ++ a.text := by
  rw [← Function.comp_def, ← map_map]
  cases home with
  | «variable» name =>
    have hwritten : WrittenThrough t e id _ (.localStore s is o) :=
      writtenThrough (through_variableAccess name ty _) id rfl (localAccess_variableAccess hs t is)
    rw [WrittenThrough, ho, ← map_text_subscript, ← text_valueTerm, text_assignPart (by rwa [length_map])] at hwritten
    exact hwritten
  | words offset =>
    have hwritten : WrittenAt t e id _ (.localStore s is o) := writtenAt_shared hb rfl (localAccess_slotIndex hs is)
    rw [WrittenAt, ho, ← text_valueTerm, text_storeWords] at hwritten
    exact hwritten

theorem lines_load (id : StmtId) :
    (emitStmt (.op id (.localLoad s is part)) t e).2.lines.toList = e.lines.toList
      ++ [indentation e.depth ++ (Action.define (valueName id) part (home.load t e ty part is)).text] := by
  cases home with
  | «variable» name =>
    have hwritten : WrittenThrough t e id _ (.localLoad s is part) :=
      writtenThrough (through_variableAccess name ty _) id rfl (localAccess_variableAccess hs t is)
    rw [WrittenThrough, ← map_text_subscript, text_readPart (by rwa [length_map])] at hwritten
    exact hwritten
  | words offset =>
    have hwritten : WrittenAt t e id _ (.localLoad s is part) := writtenAt_shared hb rfl (localAccess_slotIndex hs is)
    rw [WrittenAt, text_loadWords] at hwritten
    exact hwritten

end Emitted

/-! ## 6. A store and then a load -/

variable {home : Home}

section Names

variable {e' : Emitter} (h : e'.values = e.values)
include h

theorem operand_congr : (operand o t e').1 = (operand o t e).1 := by
  cases o with
  | const l => rfl
  | stmt id =>
    show ((e'.values[id]?).map Prod.fst).getD _ = ((e.values[id]?).map Prod.fst).getD _
    rw [h]

theorem indexText_congr : (indexText o t e').1 = (indexText o t e).1 := by
  match o with
  | .const (.i32 v) =>
    simp only [indexText]
    split <;> rfl
  | .const (.u32 _) | .const (.f32 _) => rfl
  | .stmt id => exact operand_congr h

theorem subscript_congr : subscript t e' = subscript t e := by
  funext o
  cases o with
  | const l => rfl
  | stmt id => exact congrArg Subscript.name (operand_congr h)

theorem valueTerm_congr : valueTerm t e' = valueTerm t e := by
  funext o
  cases o with
  | const l => rfl
  | stmt id => exact congrArg Term.name (operand_congr h)

theorem slotIndex_congr {offset : Nat} {is : List Operand} :
    slotIndex t e' offset ty is = slotIndex t e offset ty is := by
  simp only [slotIndex, LinearIndex.addAll, indexText_congr h]

theorem Home.store_congr {is : List Operand} :
    home.store t e' ty part is o = home.store t e ty part is o := by
  cases home with
  | «variable» name => rw [store, store, subscript_congr h, valueTerm_congr h]
  | words offset => rw [store, store, slotIndex_congr h, valueTerm_congr h]

theorem Home.load_congr {is : List Operand} :
    home.load t e' ty part is = home.load t e ty part is := by
  cases home with
  | «variable» name => rw [load, load, subscript_congr h]
  | words offset => rw [load, load, slotIndex_congr h]

end Names

theorem forM_line_state (t : Target) (e : Emitter) (texts : List String) :
    ∃ lines, ((texts.forM line) t e).2 = { e with lines } := by
  induction texts generalizing e with
  | nil => exact ⟨e.lines, rfl⟩
  | cons x xs ih => exact ih (line x t e).2

theorem store_state (t : Target) (e : Emitter) (id s : StmtId) (is : List Operand) (o : Operand) :
    ∃ lines bindings, (emitStmt (.op id (.localStore s is o)) t e).2 = { e with lines, bindings } := by
  simp only [emitStmt, emitOp, run_bind, localAccess_state, operandTy_state, operand_state]
  have hwrite : ∀ access ty value, ∃ bindings, (writeLocal access ty value t e).2 = { e with bindings } := by
    intro access ty value
    cases access with
    | words a =>
      show ∃ bindings, (resource .shared t e).2 = { e with bindings }
      rcases resource_cases with ⟨b, -, -, heq⟩ | ⟨-, heq⟩ <;> rw [heq]
      · exact ⟨e.bindings, rfl⟩
      · exact ⟨_, rfl⟩
    | _ => exact ⟨e.bindings, rfl⟩
  obtain ⟨bindings, hbindings⟩ := hwrite (localAccess s is t e).1 (operandTy o t e).1 (operand o t e).1
  rw [hbindings]
  obtain ⟨lines, hlines⟩ := forM_line_state t { e with bindings }
    (writeLocal (localAccess s is t e).1 (operandTy o t e).1 (operand o t e).1 t e).1
  exact ⟨lines, bindings, hlines⟩

theorem lines_store_load (hb : Bound t e) {part' : Ty} (hs : e.slots[s]? = some (home.slot ty))
    {is js : List Operand} (hpart : ty.select is.length = some part)
    (hpart' : ty.select js.length = some part') (ho : (operandTy o t e).1 = part)
    (id id' : StmtId) :
    (emitBlock [.op id (.localStore s is o), .op id' (.localLoad s js part')] t e).2.lines.toList = e.lines.toList
      ++ (home.store t e ty part is o ++ [Action.define (valueName id') part' (home.load t e ty part' js)]).map
        fun a => indentation e.depth ++ a.text := by
  have hstore := lines_store hb hs hpart id ho
  have hbound := (advances_stmt t e (.op id (.localStore s is o))).bound hb
  obtain ⟨lines, bindings, hstate⟩ := store_state t e id s is o
  show (emitStmt (.op id' (.localLoad s js part')) t (emitStmt (.op id (.localStore s is o)) t e).2).2.lines.toList = _
  rw [hstate] at hstore hbound ⊢
  -- the load finds the names, the slot and the depth as the store did
  have hload : home.load t { e with lines, bindings } ty part' js = home.load t e ty part' js := by
    apply Home.load_congr
    rfl
  rw [lines_load hbound hs hpart' id', hstore, hload, map_append, ← append_assoc]
  rfl

end ArrayKernel.Shader
