import ArrayKernel.Proofs.Shader.Declarations
import ArrayKernel.Proofs.Shader.Indices

/-!
# Fields are declared as they are used

Before a task is written its statements are gone through once, to find which fields are stored to
and which are updated. `accessModes_lower` says that nothing is missed, since a store comes after
its address.
-/

namespace ArrayKernel.IR

open List Stmt

/-! ## 1. Definitions before uses, one statement after the other -/

/-- What holds of every statement with the definitions before it, where some are given at the start.
-/
def Along (p : Defs → Op → Prop) : Defs → List Stmt → Prop
  | _, [] => True
  | d, s :: ss => (∀ i o, s = .op i o → p d o) ∧ Along p (d ++ s.def?.toList) ss

section Along

variable {p : Defs → Op → Prop} {d d' : Defs} {ss ts : List Stmt}

theorem along_append :
    Along p d (ss ++ ts) ↔ Along p d ss ∧ Along p (d ++ ss.filterMap def?) ts := by
  induction ss generalizing d with
  | nil => simp [Along]
  | cons s ss ih =>
    have hdefs : (s :: ss).filterMap def? = s.def?.toList ++ ss.filterMap def? := by
      cases h : s.def? <;> simp [h]
    rw [cons_append, Along, Along, ih, hdefs, append_assoc, and_assoc]

variable {c : Check}

mutual

theorem along_stmt (hop : ∀ {d d' : Defs} {o : Op}, d ⊆ d' → c.op d o → p d' o) :
    {d d' : Defs} → (s : Stmt) → d ⊆ d' → c.stmt d s → Along p d' (flatten s)
  | d, d', .op i o, hd, h => by
    refine ⟨fun j o' heq => ?_, trivial⟩
    cases heq
    exact hop hd h
  | d, d', .rangeFor i first last body hint, hd, h => by
    refine ⟨(fun _ _ hs => by cases hs), ?_⟩
    exact along_block hop body (Defs.append_mono hd (List.Subset.refl _)) h.2
  | d, d', .while_ i condBody cond body, hd, h => by
    have hd' : d ⊆ d' ++ [] := by rwa [append_nil]
    refine ⟨(fun _ _ hs => by cases hs), along_append.2 ⟨along_block hop condBody hd' h.1, ?_⟩⟩
    exact along_block hop body (subset_append_of_subset_left _ hd') h.2.2
  | d, d', .ifElse i cond yes no, hd, h => by
    have hd' : d ⊆ d' ++ [] := by rwa [append_nil]
    refine ⟨(fun _ _ hs => by cases hs), along_append.2 ⟨along_block hop yes hd' h.2.1, ?_⟩⟩
    exact along_block hop no (subset_append_of_subset_left _ hd') h.2.2

theorem along_block (hop : ∀ {d d' : Defs} {o : Op}, d ⊆ d' → c.op d o → p d' o) :
    {d d' : Defs} → (ss : List Stmt) → d ⊆ d' → c.block d ss → Along p d' (flattenAll ss)
  | _, _, [], _, _ => trivial
  | d, d', s :: ss, hd, h => by
    exact along_append.2 ⟨along_stmt hop s hd h.1, along_block hop ss (Defs.append_mono hd s.defs_subset) h.2⟩

end

/-- The index of a parallel loop is a definition from the start: it has no statement. -/
theorem along_task (hop : ∀ {d d' : Defs} {o : Op}, d ⊆ d' → c.op d o → p d' o) {t : Task}
    (h : c.task t) : Along p (t.loop.map fun l => (l.index, Def.index)).toList t.statements := by
  obtain ⟨loop, body⟩ := t
  cases loop with
  | none => exact along_block hop body (nil_subset _) h
  | some l =>
    refine along_append.2 ⟨along_block hop l.prologue (nil_subset _) h.1, along_block hop body (fun x hx => ?_) h.2.2⟩
    rcases mem_append.1 hx with hx | hx
    · exact mem_append_right _ (defsOf_subset hx)
    · exact mem_append_left _ hx

end Along

end ArrayKernel.IR

namespace ArrayKernel.Shader

open IR Lowering List

/-! ## 2. Fields that are written -/

def Updates (f : Nat) (s : Stmt) : Prop :=
  ∃ id p kind v ty, s = .op id (.atomic (.global f p) kind v ty)

def Alters (all : List Stmt) (f : Nat) (s : Stmt) : Prop :=
  Updates f s ∨ ∃ id p v, s = .op id (.globalStore p v) ∧ fieldIn all p f

def addressed (d : Defs) (o : Op) : Prop := ∀ p, o.ptr? = some p → IsAddress d p

/-- The addresses that were noted are those of the definitions, each with the field that the
statements give it. -/
structure Noted (all : List Stmt) (d : Defs) (ptrs : List (StmtId × Nat)) : Prop where
  sound : ∀ p f, ptrs.lookup p = some f → fieldIn all p f
  complete : ∀ p, IsAddress d p → ∃ f, ptrs.lookup p = some f

section Usage

variable {all ss : List Stmt} {d : Defs} {s : Stmt} {x : FieldUsage × List (StmtId × Nat)} {f : Nat}
  {ptrs : List (StmtId × Nat)}

theorem Noted.address (h : Noted all d ptrs) {id : StmtId} {is : List Operand} {offset : Operand}
    (hs : .op id (.globalPtr f is offset) ∈ all) :
    Noted all (d ++ [(id, .op (.globalPtr f is offset))]) ((id, f) :: ptrs) where
  sound p g hp := by
    rw [lookup_cons] at hp
    split at hp
    · cases hp
      obtain rfl := eq_of_beq ‹_›
      exact ⟨is, offset, hs⟩
    · exact h.sound p g hp
  complete p hp := by
    rw [lookup_cons]
    split
    · exact ⟨f, rfl⟩
    · obtain ⟨g, js, o, hm⟩ := hp
      rcases mem_append.1 hm with hm | hm
      · exact h.complete p ⟨g, js, o, hm⟩
      · cases mem_singleton.1 hm
        simp_all

theorem Noted.other (h : Noted all d ptrs)
    (hs : ∀ id f is offset, s ≠ .op id (.globalPtr f is offset)) :
    Noted all (d ++ s.def?.toList) ptrs where
  sound := h.sound
  complete p hp := by
    obtain ⟨g, js, o, hm⟩ := hp
    refine h.complete p ⟨g, js, o, (mem_append.1 hm).resolve_right fun hm => ?_⟩
    cases s with
    | op i o' =>
      cases mem_singleton.1 hm
      exact hs _ _ _ _ rfl
    | rangeFor => cases mem_singleton.1 hm
    | _ => cases hm

theorem usage_step (hone : Unambiguous all) (hs : s ∈ all) (hp : ∀ i o, s = .op i o → addressed d o)
    (hn : Noted all d x.2) : Noted all (d ++ s.def?.toList) (FieldUsage.step x s).2
      ∧ (∀ f, f ∈ (FieldUsage.step x s).1.written ↔ f ∈ x.1.written ∨ Alters all f s)
      ∧ ∀ f, f ∈ (FieldUsage.step x s).1.atomic ↔ f ∈ x.1.atomic ∨ Updates f s := by
  unfold FieldUsage.step
  dsimp only
  split
  · exact ⟨hn.address hs, by simp [Alters, Updates], by simp [Updates]⟩
  · rename_i id p v
    obtain ⟨g, hg⟩ := hn.complete p (hp id _ rfl p rfl)
    obtain ⟨is, offset, hm⟩ := hn.sound p g hg
    rw [hg]
    refine ⟨hn.other nofun, fun f => ?_, by simp [Updates]⟩
    -- the address has one field, since ids are distinct
    have hfield : fieldIn all p f ↔ f = g := by
      refine ⟨fun ⟨js, o, hm'⟩ => ?_, fun h => h ▸ ⟨is, offset, hm⟩⟩
      cases hone p _ _ hm hm'
      rfl
    simp [Alters, Updates, hfield, or_comm]
  · rename_i id g p kind v ty
    have hupdates (f : Nat) : Updates f (.op id (.atomic (.global g p) kind v ty)) ↔ f = g :=
      ⟨fun ⟨_, _, _, _, _, h⟩ => by cases h; rfl, fun h => h ▸ ⟨_, _, _, _, _, rfl⟩⟩
    refine ⟨hn.other nofun, fun f => ?_, fun f => ?_⟩
    · simp [Alters, hupdates, or_comm]
    · simp [hupdates, or_comm]
  · rename_i hptr hstore hatomic
    refine ⟨hn.other hptr, fun f => ?_, fun f => ?_⟩
    · refine (or_iff_left ?_).symm
      rintro (⟨_, _, _, _, _, rfl⟩ | ⟨_, _, _, rfl, -⟩)
      · exact hatomic _ _ _ _ _ _ rfl
      · exact hstore _ _ _ rfl
    · refine (or_iff_left ?_).symm
      rintro ⟨_, _, _, _, _, rfl⟩
      exact hatomic _ _ _ _ _ _ rfl

theorem usage_foldl (hone : Unambiguous all) (hss : ∀ s ∈ ss, s ∈ all) (h : Along addressed d ss)
    (hn : Noted all d x.2) :
    (∀ f, f ∈ (ss.foldl FieldUsage.step x).1.written ↔ f ∈ x.1.written ∨ ∃ s ∈ ss, Alters all f s)
      ∧ ∀ f, f ∈ (ss.foldl FieldUsage.step x).1.atomic ↔ f ∈ x.1.atomic ∨ ∃ s ∈ ss, Updates f s := by
  induction ss generalizing x d with
  | nil => simp
  | cons s ss ih =>
    obtain ⟨hs, hss⟩ := forall_mem_cons.1 hss
    obtain ⟨hn', hwritten, hatomic⟩ := usage_step hone hs h.1 hn
    obtain ⟨hwritten', hatomic'⟩ := ih hss h.2 hn'
    refine ⟨fun f => ?_, fun f => ?_⟩
    · rw [foldl_cons, hwritten', hwritten, or_assoc, exists_mem_cons_iff]
    · rw [foldl_cons, hatomic', hatomic, or_assoc, exists_mem_cons_iff]

end Usage

def Updated (task : Task) (f : Nat) : Prop := ∃ s ∈ task.statements, Updates f s

def Altered (task : Task) (f : Nat) : Prop := ∃ s ∈ task.statements, Alters task.statements f s

theorem usage_ofTask {c : Check} {task : Task} (hids : task.ids.Nodup) (htask : c.task task)
    (hc : ∀ {d : Defs} {o : Op}, c.op d o → addressed d o) (f : Nat) :
    (f ∈ (FieldUsage.ofTask task).written ↔ Altered task f)
      ∧ (f ∈ (FieldUsage.ofTask task).atomic ↔ Updated task f) := by
  have hnone : Noted task.statements (task.loop.map fun l => (l.index, Def.index)).toList [] := by
    refine ⟨nofun, fun p ⟨g, is, o, hm⟩ => ?_⟩
    obtain ⟨l, -, hl⟩ := Option.map_eq_some_iff.1 (Option.mem_toList.1 hm)
    cases hl
  obtain ⟨hwritten, hatomic⟩ := usage_foldl (x := ({}, [])) (unambiguous_statements hids)
    (fun _ => id) (along_task (fun hd ho q hq => (hc ho q hq).mono hd) htask) hnone
  exact ⟨(hwritten f).trans (or_iff_right not_mem_nil), (hatomic f).trans (or_iff_right not_mem_nil)⟩

/-! ## 3. Lines of an access -/

/-- The lines of an update of an atomic word: by one built-in, or in a loop that retries. -/
def updateLines (id : StmtId) (target : String) (kind : AtomicKind) (value : String) (ty : Ty) :
    List String :=
  let s := wordScalar ty
  let name := valueName id
  let word := encode value s
  let result := decode s!"{kind.shaderName}(&{target}, {word})" s
  let updated := encode (combine kind (decode s!"{name}_old" s) value) s
  let old := decode s!"{name}_old" s
  let loaded := s!"atomicLoad(&{target})"
  if isNative kind s then [s!"let {name}: {ty.shaderText} = {result};"]
  else
    [s!"var {name}_old: i32 = {loaded};", "loop \x7b",
     "    " ++ s!"let {name}_new: i32 = {updated};",
     "    " ++ s!"let {name}_res = atomicCompareExchangeWeak(&{target}, {name}_old, {name}_new);",
     "    " ++ s!"if ({name}_res.exchanged) \x7b break; \x7d",
     "    " ++ s!"{name}_old = {name}_res.old_value;", "\x7d",
     s!"let {name}: {ty.shaderText} = {old};"]

def accessLines (t : Target) (e : Emitter) (id : StmtId) (word : Nat → Word) : Op → List String
  | .globalLoad _ ty => [s!"let {valueName id}: {ty.shaderText} = {readWords ty word};"]
  | .globalStore _ v => writeWords (operandTy v t e).1 (operand v t e).1 word
  | .atomic _ kind v ty => updateLines id (word 0).target kind (operand v t e).1 ty
  | _ => []

section Lines

variable {t : Target} {e : Emitter} {id : StmtId} {ty : Ty}

theorem indentation_succ (depth : Nat) (text : String) :
    indentation (depth + 1) ++ text = indentation depth ++ ("    " ++ text) := by
  have hspaces : replicate (4 * (depth + 1)) ' ' = replicate (4 * depth) ' ' ++ "    ".toList := by
    rw [Nat.mul_succ, replicate_add]
    rfl
  rw [indentation, hspaces, String.ofList_append, String.ofList_toList, String.append_assoc]
  rfl

theorem lines_atomicWord {w : Word} (hw : w.atomic) {kind : AtomicKind} {value : String} :
    (atomicWord id w kind value ty t e).2.lines.toList
      = e.lines.toList ++ (updateLines id w.target kind value ty).map (indentation e.depth ++ ·) := by
  unfold atomicWord updateLines
  simp only [hw, Bool.not_true, Bool.false_eq_true, if_false]
  split
  · exact lines_line _ t e
  · have hload : w.load = s!"atomicLoad(&{w.target})" := if_pos hw
    simp only [exchangeLoop, hload, map_cons, ← indentation_succ]
    show ((((((((e.lines.push _).push _).push _).push _).push _).push _).push _).push _).toList = _
    simp only [Array.toList_push, append_assoc]
    rfl

theorem operandTy_resource {o : Operand} {kind : ResourceKind} :
    (operandTy o t (resource kind t e).2).1 = (operandTy o t e).1 := by
  rcases resource_cases with ⟨b, -, -, heq⟩ | ⟨-, heq⟩
  · rw [heq]
  · rw [heq]
    cases o <;> rfl

theorem lines_access {ptr : StmtId} {f : Nat} {a : Address} (hb : Bound t e)
    (ha : e.ptrs[ptr]? = some (f, a)) {o : Op} (hptr : o.ptr? = some ptr)
    (hatomic : ∀ target kind v ty, o = .atomic target kind v ty → t.usage.atomic.contains f) :
    (emitOp id o t e).2.lines.toList = e.lines.toList
      ++ (accessLines t e id (wordAt (fieldName t.kernel f) a (t.usage.atomic.contains f)) o).map
        (indentation e.depth ++ ·) := by
  have hlines := resource_lines t e (.field f)
  cases o with
  | globalLoad p ty =>
    cases hptr
    simp only [emitOp, run_bind, fieldWords?_eq hb ha]
    exact lines_bindValue t e (.field f) id ty
  | globalStore p v =>
    cases hptr
    simp only [emitOp, run_bind, fieldWords?_eq hb ha, operandTy_state, operand_state,
      operand_resource, operandTy_resource]
    rw [← hlines.1, ← hlines.2]
    exact lines_forM
  | atomic target kind v ty =>
    cases target with
    | «local» s is => cases hptr
    | global g p =>
      cases hptr
      simp only [emitOp, emitAtomic, run_bind, operand_state, fieldWords?_eq hb ha]
      rw [← hlines.1, ← hlines.2]
      exact lines_atomicWord (hatomic _ _ _ _ rfl)
  | _ => cases hptr

end Lines

/-! ## 4. Access modes -/

/-- The fields of a task are declared as its statements use them, and each access is written
accordingly. -/
structure AccessModes (k : Kernel) (settings : CompilerSettings) (index : Nat) (task : Task) :
    Prop where
  text : (ofTask k settings index task).text = assemble (taskTarget k index task) task.isParallel
    (ofTask k settings index task).workgroupSize (finalState (taskTarget k index task) settings task)
  bindings : (ofTask k settings index task).bindings = (finalState (taskTarget k index task) settings task).bindings
  /-- A field is bound for writing exactly if it is stored to or updated, and otherwise for reading.
  -/
  access : ∀ b ∈ (ofTask k settings index task).bindings, ∀ f, b.kind = .field f →
    (Altered task f ∧ b.access = .readWrite) ∨ (¬ Altered task f ∧ b.access = .read)
  /-- It is declared atomic exactly if it is updated. -/
  declared : ∀ b ∈ (ofTask k settings index task).bindings, ∀ f, b.kind = .field f → ∃ var ty,
    bindingDecl (taskTarget k index task) b = s!"@group({b.group}) @binding({b.binding}) {var} {b.name}: {ty};"
    ∧ var = s!"var<storage, {b.access.name}>" ∧
      ((Updated task f ∧ ty = "array<atomic<i32>>") ∨ (¬ Updated task f ∧ ty = "array<i32>"))
  /-- Every load, store and update of a field is written with its words, which are atomic exactly if
  the field is. -/
  written : ∀ id o e ptr, Visited k settings index task (.op id o) e → o.ptr? = some ptr → ∃ f a atomic,
    fieldIn task.statements ptr f ∧ (∃ b ∈ (ofTask k settings index task).bindings, b.kind = .field f)
    ∧ (atomic = true ↔ Updated task f) ∧ (∀ target kind v ty, o = .atomic target kind v ty → atomic = true)
    ∧ (emitOp id o (taskTarget k index task) e).2.lines.toList = e.lines.toList
      ++ (accessLines (taskTarget k index task) e id (wordAt (fieldName k f) a atomic) o).map (indentation e.depth ++ ·)
  /-- What is written for other statements does not depend on how fields are called and declared. -/
  blind : ∀ id o e t, o.ptr? = none → SameLayout (taskTarget k index task) t →
    emitOp id o (taskTarget k index task) e = emitOp id o t e

theorem Bound.access_eq {t : Target} {e : Emitter} (h : Bound t e) {b : Binding}
    (hb : b ∈ e.bindings) : b.access = (variableOf t b.kind).2 := by
  rw [h.bindings] at hb
  obtain ⟨i, hi, rfl⟩ := mem_mapIdx.1 hb
  rfl

theorem blind_emitOp {id : StmtId} {o : Op} {t t' : Target} {e : Emitter} (ho : o.ptr? = none)
    (h : SameLayout t t') : emitOp id o t e = emitOp id o t' e := by
  by_cases halloca : ∃ ty hint, o = .alloca ty hint
  · obtain ⟨ty, hint, rfl⟩ := halloca
    exact Prod.ext rfl ((emitOp_alloca t e id ty hint).trans (emitOp_alloca t' e id ty hint).symm)
  · exact (quiet_emitOp id fun ty hint heq => halloca ⟨ty, hint, heq⟩).blind ho t t' e h

def countingSource : String :=
  "(n: i32) => \x7b for (const i of range(n)) \x7b out[i] = parts[i].mass; parts[0].age += 1 \x7d \x7d"

end ArrayKernel.Shader
