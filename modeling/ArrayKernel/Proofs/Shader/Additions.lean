import ArrayKernel.Proofs.Shader.Emission
import ArrayKernel.Proofs.Shader.Lines

/-!
# What writing adds to a shader

`AddsFrom` says how a step changes the state of writing: the blocks that its lines open and close,
the ids of its entries, the words of the names that it declares, and the resources that it binds.
-/

namespace ArrayKernel.Shader

open IR Text List

variable {t : Target} {e e' : Emitter} {α β : Type} {a ending name text value : String}
  {slot id : StmtId} {access : LocalAccess} {m n : Nat} {ty : Ty}

/-! ## 1. Bindings -/

def Emitter.kinds (e : Emitter) : List ResourceKind := e.bindings.map Binding.kind

/-- Different resources are bound, each under its number and its name. -/
structure Bound (t : Target) (e : Emitter) : Prop where
  nodup : e.kinds.Nodup
  bindings : e.bindings = e.kinds.mapIdx fun i kind => bindingOf t kind i

theorem Bound.name_eq (h : Bound t e) {b : Binding} (hb : b ∈ e.bindings) :
    b.name = (variableOf t b.kind).1 := by
  rw [h.bindings] at hb
  obtain ⟨i, hi, rfl⟩ := mem_mapIdx.1 hb
  rfl

theorem run_bind (t : Target) (e : Emitter) (m : Emit α) (f : α → Emit β) :
    (m >>= f) t e = f (m t e).1 t (m t e).2 := rfl

theorem run_get (t : Target) (e : Emitter) : (get : Emit Emitter) t e = (e, e) := rfl

theorem resource_cases {kind : ResourceKind} :
    (∃ b ∈ e.bindings, b.kind = kind ∧ resource kind t e = (b.name, e)) ∨
    (kind ∉ e.kinds ∧ resource kind t e =
      ((variableOf t kind).1, { e with bindings := e.bindings ++ [bindingOf t kind e.bindings.length] })) := by
  cases hfind : e.bindings.find? (·.kind = kind) with
  | some b =>
    refine .inl ⟨b, mem_of_find?_eq_some hfind, by simpa using find?_some hfind, ?_⟩
    rw [resource, run_bind, run_get, hfind]
    rfl
  | none =>
    refine .inr ⟨fun hmem => ?_, ?_⟩
    · obtain ⟨b, hb, hkind⟩ := mem_map.1 hmem
      simpa [hkind] using find?_eq_none.1 hfind b hb
    · rw [resource, run_bind, run_get, hfind]
      rfl

theorem resource_name (h : Bound t e) (kind : ResourceKind) :
    (resource kind t e).1 = (variableOf t kind).1 := by
  rcases resource_cases with ⟨b, hb, hkind, heq⟩ | ⟨-, heq⟩
  · rw [heq, ← hkind]
    exact h.name_eq hb
  · rw [heq]

/-! ## 2. Additions -/

/-- What a step adds to the state: lines that lead from `m` open blocks to `n`, entries for the ids
`I`, names with words in `W`, and the resources `U`. -/
structure AddsFrom (m n : Nat) (t : Target) (I : StmtId → Prop) (W : List Char → Prop)
    (U : ResourceKind → Prop) (e e' : Emitter) : Prop where
  lines : ∃ ls, e'.lines.toList = e.lines.toList ++ ls ∧ depthFrom m ls = some n ∧ DeclareOnly W ls ∧ DeclaredOnce ls
  values : ∀ i, ¬ I i → e'.values[i]? = e.values[i]?
  ptrs : ∀ i, ¬ I i → e'.ptrs[i]? = e.ptrs[i]?
  slots : ∀ i, ¬ I i → e'.slots[i]? = e.slots[i]?
  kept : ∀ (i : StmtId) (s : Slot), e.slots[i]? = some s → e'.slots[i]? = some s
  kinds : ∀ kind, kind ∈ e'.kinds ↔ kind ∈ e.kinds ∨ U kind
  bound : Bound t e → Bound t e'

abbrev Adds (t : Target) (I : StmtId → Prop) (W : List Char → Prop) (U : ResourceKind → Prop)
    (e e' : Emitter) : Prop :=
  AddsFrom 0 0 t I W U e e'

abbrev Never {α : Type} : α → Prop := fun _ => False

namespace AddsFrom

variable {I I' : StmtId → Prop} {W W' : List Char → Prop} {U U' : ResourceKind → Prop}
  {e1 e2 : Emitter} {m n p : Nat}

theorem ofLines (ls : List String) (hlines : e'.lines.toList = e.lines.toList ++ ls)
    (hdepth : depthFrom m ls = some n) (honly : DeclareOnly W ls) (honce : DeclaredOnce ls)
    (hvalues : e'.values = e.values) (hptrs : e'.ptrs = e.ptrs) (hslots : e'.slots = e.slots)
    (hbindings : e'.bindings = e.bindings) : AddsFrom m n t Never W Never e e' where
  lines := ⟨ls, hlines, hdepth, honly, honce⟩
  values i _ := by rw [hvalues]
  ptrs i _ := by rw [hptrs]
  slots i _ := by rw [hslots]
  kept i s h := by rwa [hslots]
  kinds kind := by simp [Emitter.kinds, hbindings]
  bound h := ⟨by simpa [Emitter.kinds, hbindings] using h.nodup, by simpa [Emitter.kinds, hbindings] using h.bindings⟩

theorem same (hlines : e'.lines = e.lines) (hvalues : e'.values = e.values)
    (hptrs : e'.ptrs = e.ptrs) (hslots : e'.slots = e.slots)
    (hbindings : e'.bindings = e.bindings) : AddsFrom m m t Never Never Never e e' :=
  ofLines [] (by simp [hlines]) rfl nofun .nil hvalues hptrs hslots hbindings

theorem refl (e : Emitter) : Adds t Never Never Never e e := same rfl rfl rfl rfl rfl

theorem within (k : Nat) (h : AddsFrom m n t I W U e e') :
    AddsFrom (k + m) (k + n) t I W U e e' := by
  obtain ⟨ls, hls, hd, ho, h1⟩ := h.lines
  exact { h with lines := ⟨ls, hls, depthFrom_add hd k, ho, h1⟩ }

theorem trans (h : AddsFrom m n t I W U e e1) (h' : AddsFrom n p t I' W' U' e1 e2)
    (hW : ∀ w, W w → ¬ W' w) :
    AddsFrom m p t (fun i => I i ∨ I' i) (fun w => W w ∨ W' w) (fun kind => U kind ∨ U' kind) e e2 where
  lines := by
    obtain ⟨ls, hls, hd, ho, h1⟩ := h.lines
    obtain ⟨ms, hms, hd', ho', h1'⟩ := h'.lines
    refine ⟨ls ++ ms, by rw [hms, hls, append_assoc], ?_, ?_, h1.append h1' ho ho' hW⟩
    · rw [depthFrom_append, hd, Option.bind_some, hd']
    · intro l hl name hname
      rcases mem_append.1 hl with hl | hl
      · exact .inl (ho l hl name hname)
      · exact .inr (ho' l hl name hname)
  values i hi := (h'.values i fun h => hi (.inr h)).trans (h.values i fun h => hi (.inl h))
  ptrs i hi := (h'.ptrs i fun h => hi (.inr h)).trans (h.ptrs i fun h => hi (.inl h))
  slots i hi := (h'.slots i fun h => hi (.inr h)).trans (h.slots i fun h => hi (.inl h))
  kept i s hs := h'.kept i s (h.kept i s hs)
  kinds kind := by rw [h'.kinds, h.kinds, or_assoc]
  bound hb := h'.bound (h.bound hb)

theorem imp (h : AddsFrom m n t I W U e e') (hI : ∀ i, I i → I' i) (hW : ∀ w, W w → W' w)
    (hU : ∀ kind, U kind ↔ U' kind) : AddsFrom m n t I' W' U' e e' where
  lines := by
    obtain ⟨ls, hls, hd, ho, h1⟩ := h.lines
    exact ⟨ls, hls, hd, fun l hl name hname => hW _ (ho l hl name hname), h1⟩
  values i hi := h.values i fun h => hi (hI i h)
  ptrs i hi := h.ptrs i fun h => hi (hI i h)
  slots i hi := h.slots i fun h => hi (hI i h)
  kept := h.kept
  kinds kind := by rw [h.kinds, hU]
  bound := h.bound

theorem congr (h : AddsFrom m n t I W U e e') (hU : ∀ kind, U kind ↔ U' kind) :
    AddsFrom m n t I W U' e e' :=
  h.imp (fun _ => id) (fun _ => id) hU

theorem after (h : AddsFrom m n t Never Never U e e1) (h' : AddsFrom n p t I W Never e1 e2) :
    AddsFrom m p t I W U e e2 :=
  (h.trans h' nofun).imp (fun _ => (·.elim False.elim id)) (fun _ => (·.elim False.elim id)) fun _ => by simp

theorem silently (h : AddsFrom m n t Never Never Never e e1) (h' : AddsFrom n p t I W U e1 e2) :
    AddsFrom m p t I W U e e2 :=
  (h.trans h' nofun).imp (fun _ => (·.elim False.elim id)) (fun _ => (·.elim False.elim id)) fun _ => by simp

theorem before (h : AddsFrom m n t I W U e e1) (h' : AddsFrom n p t Never Never Never e1 e2) :
    AddsFrom m p t I W U e e2 :=
  (h.trans h' fun _ _ => id).imp (fun _ => (·.elim id False.elim)) (fun _ => (·.elim id False.elim)) fun _ => by simp

theorem inScope (h : AddsFrom 0 n t I W U e e') (hn : InScope e.lines.toList name) :
    InScope e'.lines.toList name := by
  obtain ⟨ls, hls, hd, -, -⟩ := h.lines
  rw [hls]
  exact hn.append (by rw [hd]; rfl)

end AddsFrom

/-! ## 3. Lines -/

def Begins (text : String) : Prop :=
  ∃ c d rest, text.toList = c :: d :: rest ∧ c ≠ ' ' ∧ c ≠ '\x7d' ∧ isPlainStart c d

/-- A statement of one line: it declares nothing, and opens and closes no block. -/
structure IsPlain (text : String) : Prop where
  start : Begins text
  last : ∃ c, text.toList.getLast? = some c ∧ c ≠ '\x7b'

theorem Begins.append (h : Begins a) (b : String) : Begins (a ++ b) := by
  obtain ⟨c, d, rest, ha, hc⟩ := h
  exact ⟨c, d, rest ++ b.toList, by rw [String.toList_append, ha]; rfl, hc⟩

theorem getLast?_append {b : String} {c : Char} (h : b.toList.getLast? = some c) :
    (a ++ b).toList.getLast? = some c := by
  rw [String.toList_append, List.getLast?_append, h, Option.some_or]

theorem Begins.isPlain (h : Begins a) : IsPlain (a ++ ";") :=
  ⟨h.append _, ';', getLast?_append rfl, by decide⟩

theorem IsPlain.stops (h : IsPlain text) : Stops (fun c => c = ' ' || c = '\x7d') text.toList := by
  obtain ⟨c, d, rest, htext, hspace, hbrace, -⟩ := h.start
  rw [htext]
  exact Bool.or_eq_false_iff.2 ⟨decide_eq_false hspace, decide_eq_false hbrace⟩

theorem IsPlain.declaresAs (h : IsPlain text) (depth : Nat) :
    DeclaresAs (indentation depth ++ text) none := by
  obtain ⟨c, d, rest, htext, hspace, -, hplain⟩ := h.start
  exact declaresAs_none htext hspace hplain depth

theorem IsPlain.depthFrom (h : IsPlain text) (depth n : Nat) (ls : List String) :
    Shader.depthFrom n ((indentation depth ++ text) :: ls) = Shader.depthFrom n ls := by
  obtain ⟨c, hlast, hbrace⟩ := h.last
  rw [depthFrom_line h.stops hlast, decide_eq_false hbrace]
  rfl

theorem lines_line (text : String) (t : Target) (e : Emitter) :
    (line text t e).2.lines.toList = e.lines.toList ++ [indentation e.depth ++ text] := Array.toList_push

theorem addsFrom_line {word : Option (List Char)}
    (hdepth : depthFrom m [indentation e.depth ++ text] = some n)
    (hword : DeclaresAs (indentation e.depth ++ text) word) :
    AddsFrom m n t Never (fun w => word = some w) Never e (line text t e).2 := by
  refine .ofLines _ (lines_line text t e) hdepth (fun l hl name hname => ?_) (pairwise_singleton _ _) rfl rfl rfl rfl
  rw [mem_singleton.1 hl] at hname
  exact hword name hname

theorem addsFrom_silent (hdepth : depthFrom m [indentation e.depth ++ text] = some n)
    (hword : DeclaresAs (indentation e.depth ++ text) none) :
    AddsFrom m n t Never Never Never e (line text t e).2 :=
  (addsFrom_line hdepth hword).imp (fun _ => id) nofun fun _ => .rfl

theorem adds_line (h : IsPlain text) : Adds t Never Never Never e (line text t e).2 :=
  addsFrom_silent (h.depthFrom e.depth 0 []) (h.declaresAs e.depth)

theorem adds_lines {texts : List String} (h : ∀ x ∈ texts, IsPlain x) :
    Adds t Never Never Never e ((texts.forM line) t e).2 := by
  induction texts generalizing e with
  | nil => exact .refl e
  | cons x xs ih =>
    exact (adds_line (h x (mem_cons_self ..))).before (ih fun y hy => h y (mem_cons_of_mem _ hy))

theorem addsFrom_open (h : Begins text) (hlast : text.toList.getLast? = some '\x7b') :
    AddsFrom m (m + 1) t Never Never Never e (line text t e).2 := by
  obtain ⟨c, d, rest, htext, hspace, hbrace, hplain⟩ := h
  have hstops : Stops (fun c => c = ' ' || c = '\x7d') text.toList := by
    rw [htext]
    exact Bool.or_eq_false_iff.2 ⟨decide_eq_false hspace, decide_eq_false hbrace⟩
  exact addsFrom_silent (depthFrom_line hstops hlast e.depth m []) (declaresAs_none htext hspace hplain e.depth)

theorem addsFrom_close : AddsFrom (m + 1) m t Never Never Never e (line "\x7d" t e).2 :=
  addsFrom_silent (depthFrom_close (c := '\x7d') rfl rfl e.depth m []) (declaresAs_none_of_brace rfl e.depth)

theorem addsFrom_else :
    AddsFrom (m + 1) (m + 1) t Never Never Never e (line "\x7d else \x7b" t e).2 :=
  addsFrom_silent (depthFrom_close (c := '\x7b') rfl rfl e.depth m []) (declaresAs_none_of_brace rfl e.depth)

def opened (text : String) (t : Target) (e : Emitter) : Emitter :=
  { (line text t e).2 with depth := e.depth + 1 }

def closed (t : Target) (e : Emitter) : Emitter := (line "\x7d" t { e with depth := e.depth - 1 }).2

theorem addsFrom_opened (h : Begins text) (hlast : text.toList.getLast? = some '\x7b') (m : Nat) :
    AddsFrom m (m + 1) t Never Never Never e (opened text t e) :=
  (addsFrom_open h hlast).before (.same rfl rfl rfl rfl rfl)

theorem addsFrom_closed : AddsFrom (m + 1) m t Never Never Never e (closed t e) := by
  have hdepth : AddsFrom (m + 1) (m + 1) t Never Never Never e { e with depth := e.depth - 1 } :=
    .same rfl rfl rfl rfl rfl
  exact hdepth.after addsFrom_close

theorem adds_block {I : StmtId → Prop} {W : List Char → Prop} {U : ResourceKind → Prop}
    {e1 : Emitter} (h : Begins text) (hlast : text.toList.getLast? = some '\x7b')
    (hin : Adds t I W U (opened text t e) e1) : Adds t I W U e (closed t e1) :=
  ((addsFrom_opened h hlast 0).silently (hin.within 1)).before addsFrom_closed

def StartsDeclaration (text name : String) : Prop :=
  ∃ kw ∈ keywords, ∃ c rest, text.toList = kw ++ (name.toList ++ c :: rest) ∧ isSeparator c

theorem StartsDeclaration.stops (h : StartsDeclaration text name) :
    Stops (fun c => c = ' ' || c = '\x7d') text.toList := by
  obtain ⟨kw, hkw, c, rest, htext, -⟩ := h
  rw [htext]
  simp only [keywords, mem_cons, not_mem_nil, or_false] at hkw
  rcases hkw with rfl | rfl | rfl <;> rfl

theorem StartsDeclaration.declares (h : StartsDeclaration text name) {depth : Nat} :
    Declares (indentation depth ++ text) name := by
  obtain ⟨kw, hkw, c, rest, htext, hc⟩ := h
  exact declares_line hkw htext hc

theorem StartsDeclaration.addsFrom (h : StartsDeclaration text name)
    (hlast : text.toList.getLast? = some '\x7b') :
    AddsFrom m (m + 1) t Never (· = wordOf name) Never e (line text t e).2 :=
  (addsFrom_line (depthFrom_line h.stops hlast e.depth m []) h.declares.declaresAs).imp
    (fun _ => id) (fun _ h => (Option.some.inj h).symm) fun _ => Iff.rfl

theorem StartsDeclaration.addsFrom_opened (h : StartsDeclaration text name)
    (hlast : text.toList.getLast? = some '\x7b') (m : Nat) :
    AddsFrom m (m + 1) t Never (· = wordOf name) Never e (opened text t e) :=
  (h.addsFrom hlast).before (.same rfl rfl rfl rfl rfl)

theorem StartsDeclaration.inScope (h : StartsDeclaration text name) :
    InScope (line text t e).2.lines.toList name := by
  rw [lines_line]
  exact .declared h.declares rfl

structure IsDeclaration (text name : String) : Prop where
  start : StartsDeclaration text name
  last : ∃ c, text.toList.getLast? = some c ∧ c ≠ '\x7b'

namespace IsDeclaration

variable {text name : String} (h : IsDeclaration text name)
include h

theorem depthFrom (depth n : Nat) (ls : List String) :
    Shader.depthFrom n ((indentation depth ++ text) :: ls) = Shader.depthFrom n ls := by
  obtain ⟨c, hlast, hbrace⟩ := h.last
  rw [depthFrom_line h.start.stops hlast, decide_eq_false hbrace]
  rfl

theorem adds : Adds t Never (· = wordOf name) Never e (line text t e).2 :=
  (addsFrom_line (h.depthFrom e.depth 0 []) h.start.declares.declaresAs).imp (fun _ => id)
    (fun _ h => (Option.some.inj h).symm) fun _ => Iff.rfl

end IsDeclaration

/-! ## 4. Entries -/

theorem adds_insertValue (id : StmtId) (x : String × Ty) :
    Adds t (· = id) Never Never e { e with values := e.values.insert id x } :=
  { (.refl e : Adds t Never Never Never e e) with
    values := fun i hi => by
      show (e.values.insert id x)[i]? = _
      rw [Std.HashMap.getElem?_insert, if_neg]
      simpa using fun h => hi h.symm
    ptrs := fun _ _ => rfl
    slots := fun _ _ => rfl
    bound := fun h => ⟨h.nodup, h.bindings⟩ }

theorem adds_insertPtr (id : StmtId) (x : Nat × Address) :
    Adds t (· = id) Never Never e { e with ptrs := e.ptrs.insert id x } :=
  { (.refl e : Adds t Never Never Never e e) with
    values := fun _ _ => rfl
    ptrs := fun i hi => by
      show (e.ptrs.insert id x)[i]? = _
      rw [Std.HashMap.getElem?_insert, if_neg]
      simpa using fun h => hi h.symm
    slots := fun _ _ => rfl
    bound := fun h => ⟨h.nodup, h.bindings⟩ }

theorem adds_insertSlot (h : e.slots[id]? = none) (x : Slot) :
    Adds t (· = id) Never Never e { e with slots := e.slots.insert id x } := by
  have hother : ∀ i, ¬ i = id → (e.slots.insert id x)[i]? = e.slots[i]? := fun i hi => by
    rw [Std.HashMap.getElem?_insert, if_neg]
    simpa using fun h => hi h.symm
  refine { (.refl e : Adds t Never Never Never e e) with
    values := fun _ _ => rfl
    ptrs := fun _ _ => rfl
    slots := hother
    kept := fun i s hs => ?_
    bound := fun h => ⟨h.nodup, h.bindings⟩ }
  rw [← hs]
  refine hother i fun hi => ?_
  rw [hi, h] at hs
  cases hs

theorem adds_resource (t : Target) (e : Emitter) (kind : ResourceKind) :
    Adds t Never Never (· = kind) e (resource kind t e).2 := by
  rcases resource_cases with ⟨b, hb, hkind, heq⟩ | ⟨hnew, heq⟩
  · rw [heq]
    have hmem : kind ∈ e.kinds := mem_map.2 ⟨b, hb, hkind⟩
    refine { (.refl e : Adds t Never Never Never e e) with kinds := fun k => ?_ }
    exact ⟨.inl, fun h => h.elim id fun h => h ▸ hmem⟩
  · rw [heq]
    have hkinds : ({ e with bindings := e.bindings ++ [bindingOf t kind e.bindings.length] } : Emitter).kinds
        = e.kinds ++ [kind] := by
      simp [Emitter.kinds, bindingOf]
    refine { (.refl e : Adds t Never Never Never e e) with
      kinds := fun k => by rw [hkinds, mem_append, mem_singleton]
      bound := fun hb => ⟨?_, ?_⟩ }
    · rw [hkinds]
      exact nodup_append.2 ⟨hb.nodup, pairwise_singleton _ _, fun a ha b hb hab =>
        hnew (mem_singleton.1 hb ▸ hab ▸ ha)⟩
    · show e.bindings ++ [bindingOf t kind e.bindings.length] = _
      have hlen : e.bindings.length = e.kinds.length := (length_map _).symm
      rw [hkinds, mapIdx_append, ← hb.bindings, hlen]
      simp

theorem isDeclaration_value (id : StmtId) (ty expr : String) :
    IsDeclaration (s!"let {valueName id}: {ty} = {expr};") (valueName id) := by
  refine ⟨⟨_, mem_cons_self .., ':', (" " ++ ty ++ " = " ++ expr ++ ";").toList, ?_, rfl⟩, ';',
    getLast?_append rfl, by decide⟩
  show ("let " ++ valueName id ++ ": " ++ ty ++ " = " ++ expr ++ ";").toList = _
  simp only [String.toList_append, append_assoc]
  rfl

theorem adds_bindValue (t : Target) (e : Emitter) (id : StmtId) (ty : Ty) (expr : String) :
    Adds t (· = id) (· = wordOf (valueName id)) Never e (bindValue id ty expr t e).2 := by
  have hline := (isDeclaration_value id ty.shaderText expr).adds (t := t) (e := e)
  refine (hline.trans (adds_insertValue id (valueName id, ty)) fun _ _ h => h).imp ?_ ?_ ?_
  · exact fun _ h => h.resolve_left not_false
  · exact fun _ h => h.resolve_right not_false
  · exact fun _ => by simp

theorem values_bindValue (t : Target) (e : Emitter) (id : StmtId) (ty : Ty) (expr : String) :
    (bindValue id ty expr t e).2.values[id]? = some (valueName id, ty) := Std.HashMap.getElem?_insert_self

theorem inScope_bindValue {expr : String} :
    InScope (bindValue id ty expr t e).2.lines.toList (valueName id) :=
  (isDeclaration_value id ty.shaderText expr).start.inScope (t := t)

/-! ## 5. Steps that only look -/

section State

variable (t e)

theorem run_read : (read : Emit Target) t e = (t, e) := rfl

theorem operand_state (o : Operand) : (operand o t e).2 = e := by
  cases o <;> rfl

theorem operandTy_state (o : Operand) : (operandTy o t e).2 = e := by
  cases o <;> rfl

theorem indexText_state (o : Operand) : (indexText o t e).2 = e := by
  unfold indexText
  split
  · split
    · rfl
    · exact operand_state t e _
  · rfl
  · exact operand_state t e _

theorem condition_state {o : Operand} : (condition o t e).2 = e := by
  unfold condition
  split
  · rfl
  · simp only [run_bind, operandTy_state, operand_state]
    rfl

theorem mapM_state {f : α → Emit β} (hf : ∀ x, (f x t e).2 = e) (xs : List α) :
    ((xs.mapM f) t e).2 = e := by
  induction xs with
  | nil => rfl
  | cons x xs ih =>
    rw [mapM_cons]
    simp only [run_bind, hf x, ih]
    rfl

end State

/-! ## 6. Places -/

theorem begins_varName (id : StmtId) (hint : String) : Begins (varName id hint) := by
  obtain ⟨tail, hname, -⟩ := toList_varName
  cases hdigits : Nat.toDigits 10 id with
  | nil => exact absurd hdigits Nat.toDigits_ne_nil
  | cons d ds => exact ⟨'_', d, ds ++ tail, by rw [hname, hdigits]; rfl, by decide, by decide, rfl⟩

def LocalAccess.IsVariable : LocalAccess → Prop
  | .expr text => Begins text
  | .row name _ _ => Begins name
  | .words _ => False

theorem localAccess_shared {offset : Nat} (h : e.slots[slot]? = some (.shared offset ty))
    (t : Target) (indices : List Operand) : ∃ a, localAccess slot indices t e = (.words a, e) := by
  simp only [localAccess, run_bind, mapM_state t e (indexText_state t e) indices, run_get, h]
  exact ⟨_, rfl⟩

theorem localAccess_variable (h : e.slots[slot]? = some (.variable name ty))
    (hname : Begins name) (t : Target) (indices : List Operand) :
    ∃ access, access.IsVariable ∧ localAccess slot indices t e = (access, e) := by
  simp only [localAccess, run_bind, mapM_state t e (indexText_state t e) indices, run_get, h]
  generalize (List.mapM indexText indices t e).1 = texts
  have hone : ∀ i, Begins (name ++ "[" ++ i ++ "]") := fun i => ((hname.append _).append _).append _
  have htwo : ∀ r c, Begins (name ++ "[" ++ c ++ "][" ++ r ++ "]") := fun r c =>
    ((((hname.append _).append _).append _).append _).append _
  -- a matrix takes one or two indices, anything else at most one
  cases ty with
  | matrix rows cols =>
    rcases texts with _ | ⟨r, _ | ⟨c, _ | ⟨x, xs⟩⟩⟩
    · exact ⟨.expr name, hname, rfl⟩
    · exact ⟨.row name _ r, hname, rfl⟩
    · exact ⟨.expr _, htwo r c, rfl⟩
    · exact ⟨.expr name, hname, rfl⟩
  | _ =>
    rcases texts with _ | ⟨i, _ | ⟨x, xs⟩⟩
    · exact ⟨.expr name, hname, rfl⟩
    · exact ⟨.expr _, hone i, rfl⟩
    · exact ⟨.expr name, hname, rfl⟩

theorem readLocal_variable (h : access.IsVariable) : (readLocal access ty t e).2 = e := by
  cases access with
  | words a => cases h
  | _ => rfl

theorem writeLocal_variable (h : access.IsVariable) (t : Target) (e : Emitter) (ty : Ty)
    (value : String) : (∀ x ∈ (writeLocal access ty value t e).1, IsPlain x) ∧
      (writeLocal access ty value t e).2 = e := by
  cases access with
  | words a => cases h
  | expr text =>
    refine ⟨fun x hx => ?_, rfl⟩
    rw [mem_singleton.1 hx]
    have htext : Begins text := h
    exact ((htext.append _).append _).isPlain
  | row name cols r =>
    refine ⟨fun x hx => ?_, rfl⟩
    obtain ⟨c, -, rfl⟩ := mem_map.1 hx
    have hname : Begins name := h
    have helem : Begins (name ++ "[" ++ toString c ++ "][" ++ r ++ "] = " ++ value) :=
      (((((hname.append _).append _).append _).append _).append _).append _
    split
    · exact ⟨((helem.append _).append _).append _, ';', getLast?_append rfl, by decide⟩
    · exact helem.isPlain

theorem isPlain_store {w : Word} (h : Begins w.target) : IsPlain (w.store value) := by
  unfold Word.store
  split
  · refine ⟨?_, ';', getLast?_append rfl, by decide⟩
    exact ((Begins.append ⟨'a', 't', _, rfl, by decide, by decide, rfl⟩ _).append _).append _ |>.append _
  · exact ((h.append _).append _).isPlain

theorem begins_wordAt {buffer : String} (h : Begins buffer) {a : Address} {atomic : Bool}
    {k : Nat} :
    Begins (wordAt buffer a atomic k).target := ((h.append _).append _).append _

theorem isPlain_writeWords {word : Nat → Word} (h : ∀ k, Begins (word k).target) :
    ∀ x ∈ writeWords ty value word, IsPlain x := by
  intro x hx
  obtain ⟨k, -, rfl⟩ := mem_map.1 hx
  exact isPlain_store (h k)

theorem begins_fieldName (k : Kernel) (id : Nat) : Begins (fieldName k id) := by
  unfold fieldName
  extract_lets hint
  split
  · exact .append ⟨'f', 'i', _, rfl, by decide, by decide, rfl⟩ _
  · exact ((Begins.append ⟨'f', 'i', _, rfl, by decide, by decide, rfl⟩ _).append _).append _

theorem begins_rets : Begins "rets" := ⟨'r', 'e', _, rfl, by decide, by decide, rfl⟩

/-- The words of a field are found through an address that has been entered. -/
theorem fieldWords?_eq {ptr : StmtId} {f : Nat} {a : Address} (hb : Bound t e)
    (h : e.ptrs[ptr]? = some (f, a)) :
    fieldWords? ptr t e = (some (wordAt (fieldName t.kernel f) a (t.usage.atomic.contains f)),
      (resource (.field f) t e).2) := by
  simp only [fieldWords?, run_bind, run_get, h, resource_name hb]
  rfl

/-! ## 7. Read-modify-write -/

theorem wordOf_valueName_append (h : ∀ c ∈ ending.toList, isSeparator c = false) :
    wordOf (valueName id ++ ending) = '_' :: (Nat.toDigits 10 id ++ ending.toList) := by
  have hending : ending.toList.takeWhile (!isSeparator ·) = ending.toList := by
    have := takeWhile_append_of_stops (fun c hc => by rw [h c hc]; rfl) (stops_nil (!isSeparator ·))
    rwa [append_nil] at this
  rw [wordOf, String.toList_append, toList_valueName, cons_append, takeWhile_cons, takeWhile_toDigits, hending]
  rfl

def exchangeEndings : List String := ["_old", "_new", "_res"]

theorem wordOf_exchange (h : ending ∈ exchangeEndings) :
    wordOf (valueName id ++ ending) = '_' :: (Nat.toDigits 10 id ++ ending.toList) := by
  refine wordOf_valueName_append ?_
  simp only [exchangeEndings, mem_cons, not_mem_nil, or_false] at h
  rcases h with rfl | rfl | rfl <;> exact fun c hc =>
    Bool.not_eq_true' _ ▸ (all_eq_true (p := (!isSeparator ·))).1 rfl c hc

theorem wordOf_exchange_ne (id : StmtId) {ending' : String} (h : ending ∈ exchangeEndings)
    (h' : ending' ∈ exchangeEndings) (hne : ending.toList ≠ ending'.toList) :
    ∀ w, w = wordOf (valueName id ++ ending) → ¬ w = wordOf (valueName id ++ ending') := by
  intro w hw hw'
  rw [hw, wordOf_exchange h, wordOf_exchange h'] at hw'
  exact hne (append_cancel_left (List.cons.inj hw').2)

theorem ofId_exchange (h : ending ∈ exchangeEndings) :
    OfId id (wordOf (valueName id ++ ending)) ∧ wordOf (valueName id ++ ending) ≠ wordOf (valueName id) := by
  have hending : Stops Char.isDigit ending.toList ∧ ending.toList ≠ [] := by
    simp only [exchangeEndings, mem_cons, not_mem_nil, or_false] at h
    rcases h with rfl | rfl | rfl <;> exact ⟨rfl, by decide⟩
  refine ⟨⟨ending.toList, wordOf_exchange h, hending.1⟩, fun heq => hending.2 ?_⟩
  rw [wordOf_exchange h, wordOf, toList_valueName, takeWhile_cons] at heq
  have hdigits := takeWhile_toDigits id []
  rw [append_nil] at hdigits
  rw [hdigits] at heq
  exact append_cancel_left (List.cons.inj heq).2

theorem isDeclaration_exchange (kw : List Char) (id : StmtId) (ending : String) (c : Char)
    (rest : List Char) (hkw : kw ∈ keywords) (hc : isSeparator c)
    (htext : text.toList = kw ++ ((valueName id).toList ++ (ending.toList ++ c :: rest))) :
    IsDeclaration (text ++ ";") (valueName id ++ ending) := by
  refine ⟨⟨kw, hkw, c, rest ++ [';'], ?_, hc⟩, ';', getLast?_append rfl, by decide⟩
  rw [String.toList_append, htext, String.toList_append]
  simp only [append_assoc]
  rfl

section Exchange

variable (id : StmtId) (w : Word) (kind : AtomicKind) (value : String) (s : Scalar)

def exchangeOld : String := s!"var {valueName id}_old: i32 = {w.load};"

def exchangeNew : String :=
  let updated := encode (combine kind (decode s!"{valueName id}_old" s) value) s
  s!"let {valueName id}_new: i32 = {updated};"

def exchangeTry : String :=
  s!"let {valueName id}_res = atomicCompareExchangeWeak(&{w.target}, {valueName id}_old, {valueName id}_new);"

def exchangeTest : String := s!"if ({valueName id}_res.exchanged) \x7b break; \x7d"

def exchangeNext : String := s!"{valueName id}_old = {valueName id}_res.old_value;"

theorem isDeclaration_exchangeOld : IsDeclaration (exchangeOld id w) (valueName id ++ "_old") := by
  refine isDeclaration_exchange ['v', 'a', 'r', ' '] id "_old" ':' (" i32 = " ++ w.load).toList (by decide) rfl ?_
  simp only [String.toList_append, append_assoc]
  rfl

theorem isDeclaration_exchangeNew :
    IsDeclaration (exchangeNew id kind value s) (valueName id ++ "_new") := by
  refine isDeclaration_exchange ['l', 'e', 't', ' '] id "_new" ':'
    (" i32 = " ++ encode (combine kind (decode s!"{valueName id}_old" s) value) s).toList (by decide) rfl ?_
  simp only [String.toList_append, append_assoc]
  rfl

theorem isDeclaration_exchangeTry : IsDeclaration (exchangeTry id w) (valueName id ++ "_res") := by
  let name := valueName id
  refine ⟨⟨['l', 'e', 't', ' '], by decide, ' ', ("= atomicCompareExchangeWeak(&" ++ w.target ++ ", " ++ name ++ "_old, "
    ++ name ++ "_new);").toList, ?_, rfl⟩, ';', getLast?_append rfl, by decide⟩
  show ("let " ++ name ++ "_res = atomicCompareExchangeWeak(&" ++ w.target ++ ", " ++ name ++ "_old, " ++ name
    ++ "_new);").toList = _
  simp only [String.toList_append, append_assoc]
  rfl

theorem isPlain_exchangeTest : IsPlain (exchangeTest id) :=
  ⟨(Begins.append ⟨'i', 'f', _, rfl, by decide, by decide, rfl⟩ _).append _, '\x7d', getLast?_append rfl, by decide⟩

theorem isPlain_exchangeNext : IsPlain (exchangeNext id) :=
  ⟨(((begins_varName id "").append _).append _).append _, ';', getLast?_append rfl, by decide⟩

theorem begins_loop : Begins "loop \x7b" := ⟨'l', 'o', _, rfl, by decide, by decide, rfl⟩

variable (t e)

def insideExchange : Emitter := opened "loop \x7b" t (line (exchangeOld id w) t e).2

def beforeTry : Emitter := (line (exchangeNew id kind value s) t (insideExchange t e id w)).2

def afterTry : Emitter := (line (exchangeTry id w) t (beforeTry t e id w kind value s)).2

def beforeNext : Emitter := (line (exchangeTest id) t (afterTry t e id w kind value s)).2

theorem adds_exchangeBlock :
    Adds t Never (fun x => x = wordOf (valueName id ++ "_new") ∨ x = wordOf (valueName id ++ "_res")) Never
      (line (exchangeOld id w) t e).2 (exchangeLoop id w kind value s t e).2 := by
  have hbody := (((isDeclaration_exchangeNew id kind value s).adds.trans
    ((isDeclaration_exchangeTry id w).adds (e := beforeTry t e id w kind value s))
    (wordOf_exchange_ne id (by decide) (by decide) (by decide))).imp (fun _ => (·.elim (·) (·))) (fun _ h => h)
      fun _ => or_self_iff).before ((adds_line (isPlain_exchangeTest id)).before (adds_line (isPlain_exchangeNext id)))
  exact adds_block begins_loop rfl hbody

theorem adds_exchangeLoop :
    Adds t Never (fun x => ∃ ending ∈ exchangeEndings, x = wordOf (valueName id ++ ending)) Never e
      (exchangeLoop id w kind value s t e).2 := by
  refine ((isDeclaration_exchangeOld id w).adds.trans (adds_exchangeBlock t e id w kind value s) ?_).imp ?_ ?_ ?_
  · rintro w rfl (h | h)
    · exact wordOf_exchange_ne id (by decide) (by decide) (by decide) _ rfl h
    · exact wordOf_exchange_ne id (by decide) (by decide) (by decide) _ rfl h
  · simp
  · rintro w (h | h | h)
    · exact ⟨_, by decide, h⟩
    · exact ⟨_, by decide, h⟩
    · exact ⟨_, by decide, h⟩
  · simp

def exchangeUses : List (String × Emitter) :=
  [(valueName id ++ "_old", insideExchange t e id w), (valueName id ++ "_old", beforeTry t e id w kind value s),
   (valueName id ++ "_new", beforeTry t e id w kind value s), (valueName id ++ "_res", afterTry t e id w kind value s),
   (valueName id ++ "_old", beforeNext t e id w kind value s),
     (valueName id ++ "_res", beforeNext t e id w kind value s),
   (valueName id ++ "_old", (exchangeLoop id w kind value s t e).2)]

theorem inScope_exchangeUses :
    ∀ x ∈ exchangeUses t e id w kind value s, InScope x.2.lines.toList x.1 := by
  have hinside := addsFrom_opened (t := t) (e := (line (exchangeOld id w) t e).2) begins_loop rfl 0
  have hnew := (isDeclaration_exchangeNew id kind value s).adds (t := t) (e := insideExchange t e id w)
  have htry := (isDeclaration_exchangeTry id w).adds (t := t) (e := beforeTry t e id w kind value s)
  have htest := adds_line (t := t) (e := afterTry t e id w kind value s) (isPlain_exchangeTest id)
  have hold : InScope (insideExchange t e id w).lines.toList (valueName id ++ "_old") :=
    hinside.inScope (isDeclaration_exchangeOld id w).start.inScope
  have hres : InScope (afterTry t e id w kind value s).lines.toList (valueName id ++ "_res") :=
    (isDeclaration_exchangeTry id w).start.inScope
  simp only [exchangeUses, forall_mem_cons]
  refine ⟨hold, hnew.inScope hold, ?_, hres, htest.inScope (htry.inScope (hnew.inScope hold)),
    htest.inScope hres, ?_, forall_mem_nil _⟩
  · exact (isDeclaration_exchangeNew id kind value s).start.inScope
  · exact (adds_exchangeBlock t e id w kind value s).inScope (isDeclaration_exchangeOld id w).start.inScope

end Exchange

end ArrayKernel.Shader
