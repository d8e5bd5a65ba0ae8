import ArrayKernel.Proofs.Shader.Lowered
import ArrayKernel.Session.Launch

/-!
# Arguments and their words

Lowering, loads, launches and shaders each lay out the arguments of a kernel. They agree on every
word (`arguments_laid_out`), but a shader reads back the first component only.
-/

namespace ArrayKernel.IR

attribute [local instance (high)] Zero.ofOfNat0

/-! ## 1. Offsets -/

def wordsBefore (ps : List Param) (i : Nat) : Nat := ((ps.take i).map fun p => p.ty.size).sum

@[simp] theorem wordsBefore_zero {ps : List Param} : wordsBefore ps 0 = 0 := rfl

@[simp] theorem wordsBefore_succ {p : Param} {ps : List Param} {i : Nat} :
    wordsBefore (p :: ps) (i + 1) = p.ty.size + wordsBefore ps i := rfl

def Kernel.StartsAt (k : Kernel) (word : Nat) (ty : Ty) : Prop :=
  ∃ i p, k.params[i]? = some p ∧ word = wordsBefore k.params i ∧ ty = p.ty

end ArrayKernel.IR

namespace ArrayKernel.Lowering

open IR Surface List

variable {word : Nat} {b b' : Builder} {ty : Ty}

theorem mem_argumentsFrom {ps : List IR.Param} {x : Nat × Ty} (h : x ∈ argumentsFrom word ps) :
    ∃ i p, ps[i]? = some p ∧ x.1 = word + wordsBefore ps i ∧ x.2 = p.ty := by
  induction ps generalizing word with
  | nil => cases h
  | cons p ps ih =>
    rcases mem_cons.1 h with rfl | h
    · exact ⟨0, p, rfl, rfl, rfl⟩
    · obtain ⟨i, q, hq, hword, hty⟩ := ih h
      refine ⟨i + 1, q, hq, ?_, hty⟩
      rw [hword, wordsBefore_succ]
      omega

/-! ## 2. Parameters -/

def ascribed? : Option Name → Option Ty
  | none => some .f32
  | some a => Ty.read? a.text

def launchParams (ps : List Surface.Param) : List (String × Option Ty) :=
  (ps.filter fun p => !isTemplate p.ascription).map fun p => (p.name.text, ascribed? p.ascription)

theorem ascribed?_of_paramTy {a : Option Name} (h : paramTy a b = .ok ty b') :
    ascribed? a = some ty := by
  cases a with
  | none =>
    cases h
    rfl
  | some a =>
    simp only [paramTy] at h
    cases hty : Ty.read? a.text with
    | none =>
      rw [hty] at h
      cases h
    | some t =>
      rw [hty] at h
      cases h
      exact hty

/-- What is known of parameters that have been bound from a word on. -/
structure BoundFrom (scope inner : Scope) (word : Nat) (ps : List Surface.Param)
    (params : List IR.Param) : Prop where
  listed : params.map (fun p => (p.name, some p.ty)) = launchParams ps
  flat : ∀ p ∈ params, p.ty.isStruct = false
  others : ∀ name, name ∉ ps.map (·.name.text) → inner.get? name = scope.get? name
  /-- A name stands for the word at which the parameter starts. -/
  words : (ps.map (·.name.text)).Nodup → ∀ i p, params[i]? = some p →
    inner.get? p.name = some (.arg (word + wordsBefore params i) p.ty)

theorem boundFrom_bindParams {templates : List (String × Value)} {ps : List Surface.Param}
    {scope inner : Scope} {params : List IR.Param}
    (h : bindParams templates scope word ps b = .ok (params, inner) b') :
    BoundFrom scope inner word ps params := by
  induction ps generalizing scope word params b with
  | nil =>
    cases h
    exact ⟨rfl, forall_mem_nil _, fun _ _ => rfl, fun _ _ _ h => by cases h⟩
  | cons p ps ih =>
    unfold bindParams at h
    extract_lets name at h
    split at h
    · rename_i htemplate
      cases hv : templates.lookup name with
      | none =>
        rw [hv] at h
        cases h
      | some v =>
        rw [hv] at h
        have hrest := ih h
        refine ⟨?_, hrest.flat, fun other hother => ?_, fun hnodup => hrest.words (nodup_cons.1 hnodup).2⟩
        · rw [hrest.listed, launchParams, launchParams, filter_cons_of_neg (by simp [htemplate])]
        · obtain ⟨hne, hother⟩ := not_or.1 (fun h => hother (mem_cons.2 h))
          rw [hrest.others other hother, Scope.get?_insert, if_neg (Ne.symm hne)]
    · rename_i htemplate
      obtain ⟨ty, b1, h1, k1⟩ := bind_ok h
      obtain ⟨⟨rest, s⟩, b2, h2, k2⟩ := bind_ok k1
      cases k2
      have hrest := ih h2
      refine ⟨?_, ?_, fun other hother => ?_, fun hnodup i q hq => ?_⟩
      · rw [map_cons, hrest.listed, launchParams, launchParams,
          filter_cons_of_pos (by simp [htemplate]), map_cons, ascribed?_of_paramTy h1]
      · exact forall_mem_cons.2 ⟨(paramTy_ok h1).2, hrest.flat⟩
      · obtain ⟨hne, hother⟩ := not_or.1 (fun h => hother (mem_cons.2 h))
        rw [hrest.others other hother, Scope.get?_insert, if_neg (Ne.symm hne)]
      · obtain ⟨hnew, hnodup⟩ := nodup_cons.1 hnodup
        cases i with
        | zero =>
          cases hq
          rw [hrest.others name hnew, Scope.get?_insert, if_pos rfl]
          rfl
        | succ i =>
          rw [hrest.words hnodup i q hq, wordsBefore_succ, add_assoc]

variable {r : Routine} {scope : Scope} {templates : List (String × Value)}
  {settings : CompilerSettings} {k : Kernel}

theorem bindParams_lower (h : lower r scope templates settings = .ok k) :
    ∃ inner b, bindParams templates scope 0 r.params {} = .ok (k.params, inner) b := by
  unfold lower at h
  split at h
  · rename_i k0 b hrun
    cases h
    obtain ⟨⟨params, inner⟩, b1, h1, k1⟩ := bind_ok hrun
    obtain ⟨s, b2, -, k2⟩ := bind_ok k1
    obtain ⟨u, b3, -, k3⟩ := bind_ok k2
    cases k3
    exact ⟨inner, b1, h1⟩
  · cases h

/-! ## 3. Loads -/

def argHost (arg : Nat → Ty → Prop) : Host := { anyHost with arg }

theorem valueOk_argHost (arg : Nat → Ty → Prop) (v : Value) (hr : v.isRecord = false)
    (h : v.isTransient = false) : ValueOk (argHost arg) .empty v := by
  cases v with
  | record r => cases hr
  | place p | bound o ty | arg i ty => cases h
  | array vs ty => exact ⟨nofun, nofun⟩
  | number l | field f | texture t | function f => trivial

def loading (arg : Nat → Ty → Prop) : Check where
  op _ o := ∀ index ty, o = .argLoad index ty → arg index ty
  loop _ _ _ _ := True
  cond _ _ := True

theorem discipline_gives_loading {arg : Nat → Ty → Prop} {fields : List FieldInfo} {past D : Defs}
    {ret : Option Ty} : (discipline (argHost arg) fields past ret).Gives (loading arg) D where
  op := by
    rintro d o - ho index ty rfl
    exact ho.tracked
  loop _ _ := trivial
  cond _ _ := trivial

/-- A lowered kernel loads its arguments from the words at which they start. -/
theorem startsAt_of_argLoad (hg : HostGives (fun v => v.isTransient = false) scope templates)
    (h : lower r scope templates settings = .ok k) {id : StmtId} {index : Nat}
    (hs : .op id (.argLoad index ty) ∈ k.statements) : k.StartsAt index ty := by
  have harg : ∀ x ∈ argumentsFrom 0 k.params, k.StartsAt x.1 x.2 := by
    intro x hx
    obtain ⟨i, p, hp, hword, hty⟩ := mem_argumentsFrom hx
    exact ⟨i, p, hp, hword.trans (zero_add _), hty⟩
  obtain ⟨htasks, -, -⟩ := hg.tracked (valueOk_argHost k.StartsAt) harg h
  have hdefs : ∀ t ∈ k.tasks, t.defs ⊆ k.defs := fun t ht x hx => mem_flatMap.2 ⟨t, ht, hx⟩
  have hall := Check.Gives.tasks (fun _ _ => discipline_gives_loading) (nil_subset k.defs) hdefs htasks
  obtain ⟨t, ht, hs⟩ := mem_flatMap.1 hs
  exact (hall t ht).1 _ hs index ty rfl

end ArrayKernel.Lowering

namespace ArrayKernel

open IR Shader Number List

attribute [local instance (high)] Zero.ofOfNat0

variable {p : Param} {v : Value} {words ws : List UInt32} {vs : List Value} {k : Kernel}

/-! ## 4. Words of a launch -/

def Value.components? : Value → Option (List Literal)
  | .number l => some [l]
  | .array ls _ => some ls
  | _ => none

theorem scalars_eq_replicate {ty : Ty} (h : ty.isStruct = false) :
    ty.scalars = replicate ty.size (wordScalar ty) := by
  cases ty with
  | struct ms => cases h
  | _ => rfl

theorem encodeArgument_ok (h : encodeArgument p v = .ok ws) :
    ∃ ls, v.components? = some ls ∧ ls.length = p.ty.scalars.length
      ∧ ws = ls.zipWith (fun l s => (l.cast s).bits) p.ty.scalars := by
  unfold encodeArgument at h
  extract_lets mismatch components? at h
  have hsame : components? = v.components? := by cases v <;> rfl
  rw [hsame] at h
  cases hv : v.components? with
  | none =>
    rw [hv] at h
    cases h
  | some ls =>
    rw [hv] at h
    dsimp only at h
    split at h
    · cases h
      exact ⟨ls, rfl, ‹_›, rfl⟩
    · cases h

/-- The words of an argument: as many as the parameter has components, each of them the component as
a number of the parameter's type. -/
structure Encodes (p : Param) (v : Value) (ws : List UInt32) : Prop where
  length : ws.length = p.ty.size
  word : ∃ ls, v.components? = some ls ∧ ls.length = p.ty.size
    ∧ ∀ c : Nat, ws[c]? = ls[c]?.map fun l => (l.cast (wordScalar p.ty)).bits

theorem encodes_of_ok (hp : p.ty.isStruct = false) (h : encodeArgument p v = .ok ws) :
    Encodes p v ws := by
  obtain ⟨ls, hls, hlen, rfl⟩ := encodeArgument_ok h
  rw [scalars_eq_replicate hp, length_replicate] at hlen
  refine ⟨by simp [scalars_eq_replicate hp, hlen], ls, hls, hlen, fun c => ?_⟩
  rw [scalars_eq_replicate hp, getElem?_zipWith, getElem?_replicate]
  by_cases hc : c < p.ty.size
  · rw [if_pos hc]
    cases ls[c]? <;> rfl
  · rw [if_neg hc, getElem?_eq_none (by omega)]
    rfl

theorem encodes_flatten {ps : List Param} (hps : ∀ p ∈ ps, p.ty.isStruct = false)
    {parts : List (List UInt32)} (hlen : ps.length = vs.length)
    (h : (ps.zip vs).mapM (fun (p, v) => encodeArgument p v) = .ok parts) :
    parts.flatten.length = (ps.map fun p => p.ty.size).sum ∧
    ∀ (i : Nat) (p : Param), ps[i]? = some p → ∃ v ws, vs[i]? = some v ∧ Encodes p v ws
      ∧ ∀ c < p.ty.size, parts.flatten[wordsBefore ps i + c]? = ws[c]? := by
  induction ps generalizing vs parts with
  | nil =>
    cases h
    exact ⟨rfl, fun _ _ h => by cases h⟩
  | cons p ps ih =>
    cases vs with
    | nil => cases hlen
    | cons v vs =>
      rw [zip_cons_cons, mapM_cons] at h
      dsimp only at h
      cases hw : encodeArgument p v with
      | error err =>
        rw [hw] at h
        cases h
      | ok ws =>
        rw [hw] at h
        cases hrest : (ps.zip vs).mapM (fun (p, v) => encodeArgument p v) with
        | error err =>
          simp only [hrest] at h
          cases h
        | ok rest =>
          simp only [hrest] at h
          cases h
          obtain ⟨hp, hps⟩ := forall_mem_cons.1 hps
          have henc := encodes_of_ok hp hw
          obtain ⟨hsum, hall⟩ := ih hps (Nat.succ.inj hlen) hrest
          refine ⟨?_, fun i q hq => ?_⟩
          · rw [flatten_cons, length_append, hsum, henc.length, map_cons, sum_cons]
          · cases i with
            | zero =>
              cases hq
              refine ⟨v, ws, rfl, henc, fun c hc => ?_⟩
              rw [wordsBefore_zero, zero_add, flatten_cons, getElem?_append_left (by rw [henc.length]; exact hc)]
            | succ i =>
              obtain ⟨u, us, hu, husenc, hus⟩ := hall i q hq
              refine ⟨u, us, hu, husenc, fun c hc => ?_⟩
              rw [wordsBefore_succ, flatten_cons,
                getElem?_append_right (by rw [henc.length]; omega), henc.length, ← hus c hc]
              congr 1
              omega

theorem encodeArguments_ok (h : encodeArguments k vs = .ok words) :
    ∃ parts, words = parts.flatten ∧ k.params.length = vs.length
      ∧ (k.params.zip vs).mapM (fun (p, v) => encodeArgument p v) = .ok parts := by
  unfold encodeArguments at h
  split at h
  · cases hparts : (k.params.zip vs).mapM (fun (p, v) => encodeArgument p v) with
    | error err =>
      rw [hparts] at h
      cases h
    | ok parts =>
      rw [hparts] at h
      cases h
      exact ⟨parts, rfl, ‹_›, rfl⟩
  · cases h

theorem length_encodeArguments (hk : ∀ p ∈ k.params, p.ty.isStruct = false)
    (h : encodeArguments k vs = .ok words) : words.length = k.paramWords := by
  obtain ⟨parts, rfl, hlen, hparts⟩ := encodeArguments_ok h
  exact (encodes_flatten hk hlen hparts).1

end ArrayKernel

namespace ArrayKernel.Shader

open IR

variable {c : Char} {ty : Ty}

/-! ## 5. Reading arguments back -/

def argumentText (word : Nat) (ty : Ty) : String :=
  readWords ty fun c => { target := s!"args[{word + c}]", atomic := false }

def loadText (word : Nat) (ty : Ty) : String := decode s!"args[{word}]" (wordScalar ty)

theorem argumentText_scalar {word : Nat} {s : Scalar} :
    argumentText word (.scalar s) = decode s!"args[{word}]" s := rfl

theorem head?_append {a b : String} (h : a.toList.head? = some c) :
    (a ++ b).toList.head? = some c := by
  rw [String.toList_append, List.head?_append, h]
  rfl

theorem head?_applied {f : String} {args : List String} (h : f.toList.head? = some c) :
    (applied f args).toList.head? = some c :=
  head?_append (head?_append (head?_append h))

theorem head?_loadText (word : Nat) (ty : Ty) :
    (loadText word ty).toList.head? = some 'a' ∨ (loadText word ty).toList.head? = some 'b' := by
  unfold loadText
  cases wordScalar ty with
  | i32 => exact .inl (head?_append (head?_append rfl))
  | u32 | f32 => exact .inr (head?_append (head?_append (head?_append (head?_append rfl))))

theorem head?_argumentText (hflat : ty.isStruct = false) (hty : ty.isScalar = false) (word : Nat) :
    (argumentText word ty).toList.head? = some 'v' ∨ (argumentText word ty).toList.head? = some 'm' := by
  cases ty with
  | scalar s => cases hty
  | struct ms => cases hflat
  | vector s n => exact .inl (head?_applied (head?_append (head?_append (head?_append (head?_append rfl)))))
  | matrix r c => exact .inr (head?_applied (head?_append (head?_append (head?_append (head?_append rfl)))))

theorem loadText_eq_argumentText_iff (hflat : ty.isStruct = false) (word : Nat) :
    loadText word ty = argumentText word ty ↔ ty.isScalar := by
  constructor
  · intro heq
    by_contra hty
    have hload := head?_loadText word ty
    rw [heq] at hload
    rcases head?_argumentText hflat (Bool.eq_false_iff.2 hty) word with h | h <;> simp [h] at hload
  · intro hty
    cases ty with
    | scalar s => exact argumentText_scalar.symm
    | _ => cases hty

section Written

variable {t : Target} {e : Emitter}

theorem resource_lines (t : Target) (e : Emitter) (kind : ResourceKind) :
    (resource kind t e).2.lines = e.lines ∧ (resource kind t e).2.depth = e.depth := by
  rcases resource_cases with ⟨b, -, -, heq⟩ | ⟨-, heq⟩ <;> rw [heq] <;> exact ⟨rfl, rfl⟩

theorem lines_bindValue (t : Target) (e : Emitter) (kind : ResourceKind) (id : StmtId) (ty : Ty)
    {expr : String} : (bindValue id ty expr t (resource kind t e).2).2.lines.toList
      = e.lines.toList ++ [indentation e.depth ++ s!"let {valueName id}: {ty.shaderText} = {expr};"] := by
  show ((resource kind t e).2.lines.push (indentation (resource kind t e).2.depth ++ _)).toList = _
  rw [(resource_lines t e kind).1, (resource_lines t e kind).2, Array.toList_push]

theorem lines_argLoad (hb : Bound t e) (id : StmtId) (word : Nat) (ty : Ty) :
    (emitStmt (.op id (.argLoad word ty)) t e).2.lines.toList
      = e.lines.toList ++ [indentation e.depth ++ s!"let {valueName id}: {ty.shaderText} = {loadText word ty};"] := by
  have hname : (resource .args t e).1 = "args" := resource_name hb .args
  rw [emitStmt]
  simp only [emitOp, run_bind, hname]
  exact lines_bindValue t e .args id ty

end Written

end ArrayKernel.Shader

namespace ArrayKernel.Lowering

open IR Surface Shader

/-! ## 6. The layout of a kernel -/

/-- The places that lay out the arguments of a kernel agree on all words, and a shader reads scalars
back. -/
structure ArgumentsLaidOut (k : Kernel) (settings : CompilerSettings) : Prop where
  loads : ∀ id word ty, .op id (.argLoad word ty) ∈ k.statements → k.StartsAt word ty
  count : ∀ vs words, encodeArguments k vs = .ok words → words.length = k.paramWords
  /-- From the first word of a parameter on they are the components of its argument. -/
  words : ∀ vs words, encodeArguments k vs = .ok words → ∀ i p, k.params[i]? = some p →
    ∃ v ws, vs[i]? = some v ∧ Encodes p v ws ∧ ∀ c < p.ty.size, words[wordsBefore k.params i + c]? = ws[c]?
  /-- The line of a load, in whichever task and state it is written. -/
  text : ∀ index task, k.tasks[index]? = some task → ∀ b ∈ taskBlocks (taskTarget k index task) settings task,
    ∀ id word ty e, Visits (taskTarget k index task) b.1 b.2 (.op id (.argLoad word ty)) e →
      (emitStmt (.op id (.argLoad word ty)) (taskTarget k index task) e).2.lines.toList
        = e.lines.toList ++ [indentation e.depth ++ s!"let {valueName id}: {ty.shaderText} = {loadText word ty};"]
  first : ∀ p ∈ k.params, ∀ word, loadText word p.ty = argumentText word (.scalar (wordScalar p.ty))
  /-- This is the value of the parameter exactly if it is a scalar. -/
  value : ∀ p ∈ k.params, ∀ word, loadText word p.ty = argumentText word p.ty ↔ p.ty.isScalar

/-- The parameters of a kernel are bound to the words at which they start, and these are the words
that the loads, the launches and the shaders use. -/
theorem arguments_laid_out {r : Routine} {scope : Scope} {templates : List (String × Value)}
    {settings : CompilerSettings} {k : Kernel}
    (hg : HostGives (fun v => v.isTransient = false) scope templates)
    (h : lower r scope templates settings = .ok k) :
    (∃ inner b, bindParams templates scope 0 r.params {} = .ok (k.params, inner) b
      ∧ BoundFrom scope inner 0 r.params k.params) ∧ ArgumentsLaidOut k settings := by
  obtain ⟨inner, b, hbind⟩ := bindParams_lower h
  have hbound := boundFrom_bindParams hbind
  refine ⟨⟨inner, b, hbind, hbound⟩, ?_, ?_, ?_, ?_, fun _ _ _ => rfl, ?_⟩
  · exact fun id word ty hs => startsAt_of_argLoad hg h hs
  · exact fun vs words => length_encodeArguments hbound.flat
  · intro vs words hwords
    obtain ⟨parts, rfl, hlen, hparts⟩ := encodeArguments_ok hwords
    exact (encodes_flatten hbound.flat hlen hparts).2
  · intro index task ht blk hblk id word ty e hv
    obtain ⟨d, -, hready, -, -⟩ := (wrote_lower hg valueOk_anyHost
      (fun _ _ => trivial) h settings ht).visits blk hblk _ e hv
    exact lines_argLoad hready.bound id word ty
  · exact fun p hp word => loadText_eq_argumentText_iff (hbound.flat p hp) word

/-! ## 7. Parameters that are not scalars -/

def vectorScope : Scope where
  table := [("out", .field { id := 0, name := "out", shape := [4], elem := .vector .f32 .three })]

theorem vectorScope_given : HostGives (fun v => v.isTransient = false) vectorScope [] where
  table p hp := by
    rw [List.mem_singleton.1 hp]
    rfl
  receiver := nofun
  templates := nofun

def blendSource : String := "(n: i32, m: mat2x3f, k: u32) => \x7b out[n] = out[k] * m[0] \x7d"

/-- Six words of a matrix stand between the two others. -/
theorem arguments_laid_out_blend :
    ∃ r k, Routine.parse kernelFile blendSource = .ok r ∧ lower r vectorScope [] {} = .ok k
      ∧ (encodeArguments k [.number (.i32 3), .array (List.replicate 6 (.i32 2))
        (.matrix .two .three), .number (.i32 (-1))]).toOption
          = some ([3] ++ List.replicate 6 0x40000000 ++ [0xffffffff])
      ∧ ArgumentsLaidOut k {} := by
  obtain ⟨r, k, hr, hk, he⟩ := exists_of_kernelHas
    (fun k => (encodeArguments k [.number (.i32 3), .array (List.replicate 6 (.i32 2)) (.matrix .two .three),
      .number (.i32 (-1))]).toOption = some ([3] ++ List.replicate 6 0x40000000 ++ [0xffffffff]))
    blendSource vectorScope (by decide +kernel)
  exact ⟨r, k, hr, hk, of_decide_eq_true he, (arguments_laid_out vectorScope_given hk).2⟩

def copySource : String := "(v: vec3f) => \x7b out[0] = v \x7d"

def startsWithVector (k : Kernel) : Bool :=
  match k.tasks with
  | [task] => match task.statements with
    | .op 0 (.argLoad 0 (.vector .f32 .three)) :: _ => true
    | _ => false
  | _ => false

/-- A parameter that is a vector is read from its first word only. -/
theorem vector_not_read_back :
    ∃ r k task, Routine.parse kernelFile copySource = .ok r ∧ lower r vectorScope [] {} = .ok k ∧ k.tasks = [task]
      ∧ .op 0 (.argLoad 0 (.vector .f32 .three)) ∈ task.statements
      ∧ (∀ b ∈ taskBlocks (taskTarget k 0 task) {} task, ∀ e,
          Visits (taskTarget k 0 task) b.1 b.2 (.op 0 (.argLoad 0 (.vector .f32 .three))) e →
          (emitStmt (.op 0 (.argLoad 0 (.vector .f32 .three))) (taskTarget k 0 task) e).2.lines.toList
            = e.lines.toList ++ [indentation e.depth ++ "let _0: vec3<f32> = bitcast<f32>(args[0]);"])
      ∧ argumentText 0 (.vector .f32 .three)
          = "vec3<f32>(bitcast<f32>(args[0]), bitcast<f32>(args[1]), bitcast<f32>(args[2]))" := by
  obtain ⟨r, k, hr, hk, he⟩ := exists_of_kernelHas startsWithVector copySource vectorScope (by decide +kernel)
  unfold startsWithVector at he
  split at he
  · rename_i task htasks
    have hload : .op 0 (.argLoad 0 (.vector .f32 .three)) ∈ task.statements := by
      split at he
      · rename_i heq
        rw [heq]
        exact List.mem_cons_self ..
      · cases he
    refine ⟨r, k, task, hr, hk, htasks, hload, fun b hb e hv => ?_, by decide +kernel⟩
    have ht : k.tasks[0]? = some task := by rw [htasks]; rfl
    obtain ⟨d, -, hready, -, -⟩ := (wrote_lower vectorScope_given valueOk_anyHost
      (fun _ _ => trivial) hk {} ht).visits b hb _ e hv
    rw [lines_argLoad hready.bound]
    have htext : s!"let {valueName 0}: {(Ty.vector .f32 .three).shaderText} = {loadText 0 (.vector .f32 .three)};"
        = "let _0: vec3<f32> = bitcast<f32>(args[0]);" := by decide +kernel
    rw [htext]
  · cases he

end ArrayKernel.Lowering
