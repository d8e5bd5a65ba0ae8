import ArrayKernel.Proofs.Text.Characters
import ArrayKernel.Shader.Reading
import ArrayKernel.Shader.Statement

/-!
# The texts of shader expressions

No expression of a shader has an attribute sign in it, as long as its operands have none.
-/

namespace ArrayKernel.Shader

open IR Surface Text List

variable {a b s sym text value : String} {operandTy ty : Ty} {args : List String} {cols k : Nat}
  {w : Word} {word : Nat → Word}

abbrev Clean (s : String) : Prop := Over (· != '@') s

theorem clean_of_numeric (h : Over isNumeric s) : Clean s :=
  h.mono fun c hc => bne_iff_ne.2 fun heq => absurd hc (by rw [heq]; decide)

theorem clean_nat (n : Nat) : Clean (toString n) := clean_of_numeric (over_numeric_nat n)

theorem clean_int (i : Int) : Clean (toString i) := clean_of_numeric (over_numeric_int i)

/-! ## 1. Constants and types -/

theorem clean_scalar {s : Scalar} : Clean s.name := by
  cases s <;> exact .literal rfl

theorem clean_ty (h : ty.isStruct = false) : Clean ty.shaderText := by
  cases ty with
  | scalar s => exact clean_scalar
  | vector s n =>
    exact .fill₂ rfl (clean_nat _) rfl clean_scalar rfl
  | matrix r c =>
    exact .fill₂ rfl (clean_nat _) rfl (clean_nat _) rfl
  | struct ms => cases h

theorem clean_literal {l : Literal} : Clean l.shaderText := by
  have htext : Clean l.text := by
    cases l with
    | i32 v => exact .append (clean_int _) (.literal rfl)
    | u32 v => exact .append (clean_nat _) (.literal rfl)
    | f32 v => exact .append (clean_of_numeric (over_numeric_write _ _)) (.literal rfl)
  cases l with
  | i32 v => exact .ite (.literal rfl) htext
  | u32 v => exact htext
  | f32 v =>
    simp only [Literal.shaderText]
    split
    · exact htext
    · exact .fill₁ rfl (clean_nat _) rfl

/-! ## 2. Expressions -/

theorem clean_applied {f : String} (hf : Clean f) (hargs : ∀ a ∈ args, Clean a) :
    Clean (applied f args) :=
  .append (.append (.append hf (.literal rfl)) (.intercalate (.literal rfl) hargs)) (.literal rfl)

theorem clean_zero (h : ty.isStruct = false) : Clean (zero ty) := by
  unfold zero
  split
  · exact clean_literal
  · exact clean_applied (clean_ty h) nofun

theorem clean_decode {word : String} (h : Clean word) {s : Scalar} : Clean (decode word s) := by
  cases s with
  | i32 => exact h
  | _ => exact .fill₂ rfl clean_scalar rfl h rfl

theorem clean_encode (h : Clean value) {s : Scalar} : Clean (encode value s) := by
  cases s with
  | i32 => exact h
  | _ => exact .fill₁ rfl h rfl

theorem clean_indexed {index : String} (hv : Clean value) (hi : Clean index) :
    Clean (s!"{value}[{index}]") :=
  .append (.append (.append hv (.literal rfl)) hi) (.literal rfl)

theorem clean_indexed₂ {i j : String} (hv : Clean value) (hi : Clean i) (hj : Clean j) :
    Clean (s!"{value}[{i}][{j}]") :=
  .append (.append (.append (.append (.append hv (.literal rfl)) hi) (.literal rfl)) hj) (.literal rfl)

theorem clean_componentOf (h : Clean value) : Clean (componentOf value ty k) := by
  unfold componentOf
  split
  · exact clean_indexed h (clean_nat k)
  · exact clean_indexed₂ h (clean_nat _) (clean_nat _)
  · exact h

theorem mem_byColumn {α : Type} {rows : Nat} {parts : List α} {a : α}
    (h : a ∈ byColumn rows cols parts) : a ∈ parts := by
  obtain ⟨c, -, h⟩ := mem_flatMap.1 h
  obtain ⟨r, -, h⟩ := mem_filterMap.1 h
  exact mem_of_getElem? h

theorem clean_compose {parts : List String} (h : ty.isStruct = false) (hp : ∀ x ∈ parts, Clean x) :
    Clean (compose ty parts) := by
  cases ty with
  | scalar s =>
    cases parts with
    | nil => exact clean_zero h
    | cons x xs => exact hp x (mem_cons_self ..)
  | vector s n => exact clean_applied (clean_ty rfl) hp
  | matrix r c => exact clean_applied (clean_ty rfl) fun x hx => hp x (mem_byColumn hx)
  | struct ms => cases h

theorem clean_matrixRow {row : String} (hv : Clean value) (hr : Clean row) :
    Clean (matrixRow value cols row) := by
  refine clean_applied (.fill₁ rfl (clean_nat cols) rfl) fun x hx => ?_
  obtain ⟨c, -, rfl⟩ := mem_map.1 hx
  exact clean_indexed₂ hv (clean_nat c) hr

theorem clean_perColumn {column : Nat → String} (h : ty.isStruct = false)
    (hc : ∀ k, Clean (column k)) : Clean (perColumn ty cols column) := by
  refine clean_applied (clean_ty h) fun x hx => ?_
  obtain ⟨c, -, rfl⟩ := mem_map.1 hx
  exact hc c

theorem clean_combine {kind : AtomicKind} {old : String} (ho : Clean old) (hv : Clean value) :
    Clean (combine kind old value) := by
  cases kind <;> exact .fill₂ rfl ho rfl hv rfl

theorem Word.clean_load (h : Clean w.target) : Clean w.load :=
  .ite (.fill₁ rfl h rfl) h

theorem Word.clean_store (h : Clean w.target) (hv : Clean value) : Clean (w.store value) := by
  refine .ite (.fill₂ rfl h rfl hv rfl) ?_
  exact .append (.append (.append h (.literal rfl)) hv) (.literal rfl)

theorem clean_readWords (h : ty.isStruct = false) (hw : ∀ k, Clean (word k).target) :
    Clean (readWords ty word) := by
  refine clean_compose h fun x hx => ?_
  obtain ⟨k, -, rfl⟩ := mem_map.1 hx
  exact clean_decode (Word.clean_load (hw k))

theorem clean_writeWords (hv : Clean value) (hw : ∀ k, Clean (word k).target) :
    ∀ x ∈ writeWords ty value word, Clean x := by
  intro x hx
  obtain ⟨k, -, rfl⟩ := mem_map.1 hx
  exact Word.clean_store (hw k) (clean_encode (clean_componentOf hv))

theorem clean_infixed (ha : Clean a) (hs : Clean sym) (hb : Clean b) :
    Clean (s!"({a} {sym} {b})") :=
  .fill₃ rfl ha rfl hs rfl hb rfl

theorem clean_symbol {op : BinOp} (h : op ≠ .matMul) : Clean op.symbol := by
  cases op with
  | matMul => exact absurd rfl h
  | _ => exact .literal rfl

theorem clean_logical {z joiner : String} (ha : Clean a) (hb : Clean b) (hz : Clean z)
    (hj : Clean joiner) : Clean (s!"({a} != {z}) {joiner} ({b} != {z})") :=
  .append (.append (.fill₄ rfl ha rfl hz rfl hj rfl hb rfl) hz) (.literal rfl)

theorem clean_shift (ha : Clean a) (hb : Clean b) (hs : Clean sym) {n : Nat} :
    Clean (s!"({a} {sym} (vec{n}<u32>({b}) & vec{n}<u32>(31u)))") :=
  .append (.append (.fill₄ rfl ha rfl hs rfl (clean_nat n) rfl hb rfl) (clean_nat n)) (.literal rfl)

theorem clean_column (ha : Clean a) (hb : Clean b) (hs : Clean sym) :
    Clean (s!"({a}[{k}] {sym} {b}[{k}])") :=
  .append (.append (.fill₄ rfl ha rfl (clean_nat k) rfl hs rfl hb rfl) (clean_nat k)) (.literal rfl)

theorem clean_binaryExpr (op : BinOp) (ha : Clean a) (hb : Clean b)
    (ho : operandTy.isStruct = false) (hty : ty.isStruct = false) :
    Clean (binaryExpr op a b operandTy ty) := by
  have hz := clean_zero ho
  unfold binaryExpr
  extract_lets sym
  split
  · exact .fill₂ rfl ha rfl hb rfl
  · have hsym : Clean sym := clean_symbol ‹_›
    split
    · refine clean_applied (clean_ty hty) fun x hx => ?_
      rw [mem_singleton.1 hx]
      exact .append (.append (.append (.append ha (.literal rfl)) hsym) (.literal rfl)) hb
    · split
      · refine clean_applied (clean_ty hty) fun x hx => ?_
        rw [mem_singleton.1 hx]
        rename_i _ joiner _ _ _
        refine clean_logical ha hb hz ?_
        unfold joiner
        split <;> exact .literal rfl
      · split
        · exact clean_shift ha hb hsym
        · exact clean_shift ha hb hsym
        · exact .fill₃ rfl ha rfl hsym rfl hb rfl
        · exact .fill₃ rfl ha rfl hsym rfl hb rfl
        · exact clean_perColumn hty fun k => .fill₄ rfl ha rfl (clean_nat k) rfl hb rfl (clean_nat k) rfl
        · exact .fill₂ rfl ha rfl hb rfl
        · exact clean_perColumn hty fun k => clean_column ha hb hsym
        · exact clean_perColumn hty fun k => clean_column ha hb hsym
        · exact clean_perColumn hty fun k => clean_column ha hb hsym
        · split
          · exact .fill₂ rfl ha rfl hb rfl
          · exact .fill₂ rfl ha rfl hb rfl
          · refine clean_applied (clean_ty hty) fun x hx => ?_
            obtain ⟨k, -, rfl⟩ := mem_map.1 hx
            exact .fill₄ rfl ha rfl (clean_nat k) rfl hb rfl (clean_nat k) rfl
          · exact .fill₂ rfl ha rfl hb rfl
        · exact clean_infixed ha hsym hb

theorem clean_unaryExpr {op : UnaryOp} (ha : Clean a) (ho : operandTy.isStruct = false)
    (hty : ty.isStruct = false) : Clean (unaryExpr op a operandTy ty) := by
  unfold unaryExpr
  split
  · exact clean_perColumn hty fun k => .fill₂ rfl ha rfl (clean_nat k) rfl
  · exact .fill₁ rfl ha rfl
  · refine clean_applied (clean_ty hty) fun x hx => ?_
    rw [mem_singleton.1 hx]
    exact .append (.append ha (.literal rfl)) (clean_zero ho)
  · exact .fill₁ rfl ha rfl
  · refine clean_applied (clean_ty hty) fun x hx => ?_
    rwa [mem_singleton.1 hx]
  · exact .fill₂ rfl (clean_ty hty) rfl ha rfl

/-! ## 3. Calls and addresses -/

theorem clean_template : ∀ i ∈ Intrinsic.table, Clean i.template := by
  have hall : (Intrinsic.table.all fun i => i.template.toList.all (· != '@')) = true := by decide +kernel
  intro i hi
  exact all_eq_true.1 (all_eq_true.1 hall i hi)

theorem clean_render {i : Intrinsic} (hi : i ∈ Intrinsic.table) (hargs : ∀ a ∈ args, Clean a) :
    Clean (i.render args) := by
  refine .ofList ?_
  -- filling in one argument after the other keeps the text clean
  have hfill : ∀ (xs : List (String × Nat)) (out : List Char), (∀ x ∈ xs, Clean x.1) → (∀ c ∈ out, c != '@') →
      ∀ c ∈ xs.foldl (fun out x => replaceAll (Intrinsic.hole x.2).toList x.1.toList out) out, c != '@' := by
    intro xs
    induction xs with
    | nil => exact fun out _ hout => hout
    | cons x xs ih =>
      intro out hxs hout
      refine ih _ (fun y hy => hxs y (mem_cons_of_mem _ hy)) fun c hc => ?_
      rcases mem_replaceFrom hc with hc | hc
      · exact hxs x (mem_cons_self ..) c hc
      · exact hout c hc
  refine hfill _ _ (fun x hx => hargs x.1 ?_) (clean_template i hi)
  exact fst_mem_of_mem_zipIdx hx

def Address.Clean (a : Address) : Prop := ∀ s ∈ a.terms, Shader.Clean s

theorem Address.clean_const {offset : Int64} : (Address.const offset).Clean := nofun

theorem Address.clean_add {a : Address} {o : Operand} {scale : Int64} (ha : a.Clean)
    (ht : Shader.Clean text) : (a.add o scale text).Clean := by
  unfold Address.add
  split
  · exact ha
  · intro s hs
    rcases mem_append.1 hs with hs | hs
    · exact ha s hs
    · rw [mem_singleton.1 hs]
      exact .ite ht (.append (.append ht (.literal rfl)) (clean_int _))

theorem Address.clean_dynamic {a : Address} (ha : a.Clean) (h : a.dynamic? = some text) :
    Shader.Clean text := by
  unfold Address.dynamic? at h
  split at h
  · cases h
  · cases h
    exact .intercalate (.literal rfl) ha

theorem Address.clean_word {a : Address} (ha : a.Clean) : Shader.Clean (a.word k) := by
  unfold Address.word
  split
  · exact clean_int _
  · have hbase := Address.clean_dynamic ha ‹_›
    refine .ite hbase (.ite ?_ ?_)
    · exact .append (.append hbase (.literal rfl)) (clean_int _)
    · exact .append (.append hbase (.literal rfl)) (clean_int _)

theorem clean_wordAt {buffer : String} {a : Address} (hb : Clean buffer) (ha : a.Clean)
    {atomic : Bool} : Clean (wordAt buffer a atomic k).target :=
  clean_indexed hb (Address.clean_word ha)

/-! ## 4. Names -/

theorem clean_of_word (h : Over isWordChar s) : Clean s :=
  h.mono fun c hc => bne_iff_ne.2 fun heq => absurd hc (by rw [heq]; decide)

theorem over_word_hintOf {name : String} : Over isWordChar (hintOf name) :=
  .ofList fun _ hc => (mem_filter.1 (mem_of_mem_take hc)).2

theorem clean_valueName (id : StmtId) : Clean (valueName id) :=
  .append (.literal rfl) (clean_nat id)

theorem clean_varName (id : StmtId) {hint : String} (h : Clean hint) : Clean (varName id hint) :=
  .ite (clean_valueName id) (.append (.append (.append (.literal rfl) (clean_nat id)) (.literal rfl)) h)

end ArrayKernel.Shader
