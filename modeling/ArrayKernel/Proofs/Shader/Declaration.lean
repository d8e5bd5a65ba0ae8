import ArrayKernel.Proofs.Shader.Emission
import ArrayKernel.Proofs.Shader.Reading

/-!
# Declarations of bindings

The declaration of a binding is read as the binding: the name of the variable tells the resource,
and where no access is named the type tells it.
-/

namespace ArrayKernel.Shader

open IR Text Number List

variable {t : Target} {kind : ResourceKind} {text rest word : List Char} {n rank : Nat}
  {f : TexelFormat}

/-! ## 1. Names of variables -/

theorem idAfter?_append (start : String) {tail : List Char} (hn : n < 2 ^ 32)
    (ht : Stops (· != '_') tail) :
    ResourceKind.idAfter? start (start.toList ++ (Nat.toDigits 10 n ++ tail)) = some n := by
  have hdigits : ∀ c ∈ Nat.toDigits 10 n, c != '_' := fun c hc =>
    bne_iff_ne.2 fun h => absurd (isDigit_toDigits n c hc) (by rw [h]; decide)
  have hafter : afterStart? start.toList (start.toList ++ (Nat.toDigits 10 n ++ tail))
      = some (Nat.toDigits 10 n ++ tail) := by
    simp [afterStart?]
  rw [ResourceKind.idAfter?, hafter, Option.bind_some, takeWhile_append_of_stops hdigits ht, readNatBelow?_toDigits hn]

theorem idAfter?_eq_none {start : String} (h : start.toList.isPrefixOf text = false) :
    ResourceKind.idAfter? start text = none := by
  simp [ResourceKind.idAfter?, afterStart?, h]

theorem ofName?_eq {name : String} (hname : name.toList = text)
    (hc : text.head?.any (['a', 'r', 'g'].contains ·) = false) : ResourceKind.ofName? name =
      ((ResourceKind.idAfter? "field_" text).map .field).or
        (((ResourceKind.idAfter? "storage_tex_" text).map .storageTexture).or
          (((ResourceKind.idAfter? "tex_" text).map .texture).or
            ((ResourceKind.idAfter? "sampler_" text).map .sampler))) := by
  subst hname
  unfold ResourceKind.ofName?
  split
  · exact absurd hc (by decide)
  · exact absurd hc (by decide)
  · exact absurd hc (by decide)
  · rfl

theorem toList_nat (start : String) (n : Nat) :
    (start ++ toString n).toList = start.toList ++ (Nat.toDigits 10 n ++ []) := by
  rw [String.toList_append, toList_toString_nat, append_nil]

theorem toList_fieldName (k : Kernel) (id : Nat) :
    ∃ tail, (fieldName k id).toList = "field_".toList ++ (Nat.toDigits 10 id ++ tail) ∧ Stops (· != '_') tail := by
  unfold fieldName
  extract_lets hint
  split
  · exact ⟨[], toList_nat "field_" id, rfl⟩
  · refine ⟨"_".toList ++ hint.toList, ?_, rfl⟩
    show ("field_" ++ toString id ++ "_" ++ hint).toList = _
    simp only [String.toList_append, toList_toString_nat, append_assoc]

def ResourceKind.IsWord : ResourceKind → Prop
  | .field id | .texture id | .storageTexture id | .sampler id => id < 2 ^ 32
  | _ => True

theorem ofName?_variableOf (t : Target) (h : kind.IsWord) :
    ResourceKind.ofName? (variableOf t kind).1 = some kind := by
  cases kind with
  | field id =>
    obtain ⟨tail, hname, htail⟩ := toList_fieldName t.kernel id
    refine (ofName?_eq hname rfl).trans ?_
    rw [idAfter?_append _ h htail]
    rfl
  | args | rets | shared => rfl
  | texture id =>
    refine (ofName?_eq (toList_nat "tex_" id) rfl).trans ?_
    rw [idAfter?_append _ h (stops_nil _), idAfter?_eq_none rfl, idAfter?_eq_none rfl]
    rfl
  | storageTexture id =>
    refine (ofName?_eq (toList_nat "storage_tex_" id) rfl).trans ?_
    rw [idAfter?_append _ h (stops_nil _), idAfter?_eq_none rfl]
    rfl
  | sampler id =>
    refine (ofName?_eq (toList_nat "sampler_" id) rfl).trans ?_
    rw [idAfter?_append _ h (stops_nil _), idAfter?_eq_none rfl, idAfter?_eq_none rfl, idAfter?_eq_none rfl]
    rfl

/-! ## 2. Types of variables -/

def isTypeChar (c : Char) : Bool := isWordChar c || ['<', '>', ',', ' '].contains c

theorem isTypeChar_of_word {c : Char} (h : isWordChar c) : isTypeChar c := by simp [isTypeChar, h]

theorem over_type_nat : Over isTypeChar (toString n) :=
  (over_word_nat n).mono fun _ => isTypeChar_of_word

theorem over_type_format : Over isTypeChar f.name := by cases f <;> exact .literal rfl

theorem over_bindingType (t : Target) (kind : ResourceKind) :
    Over isTypeChar (bindingType t kind) := by
  cases kind with
  | field id => exact .ite (.literal rfl) (.literal rfl)
  | args | rets | shared => exact .literal rfl
  | texture id => exact .fill₁ rfl over_type_nat rfl
  | storageTexture id =>
    refine .fill₂ rfl over_type_nat rfl ?_ rfl
    cases t.kernel.texture? id with
    | none => exact .literal rfl
    | some x => exact over_type_format
  | sampler id => exact .literal rfl

theorem occursIn_append {pre : List Char} (hne : word ≠ []) (h : ∀ c ∈ pre, word.head? ≠ some c) :
    occursIn word (pre ++ rest) = occursIn word rest := by
  induction pre with
  | nil => rfl
  | cons c pre ih =>
    have hhere : word.isPrefixOf (c :: (pre ++ rest)) = false := isPrefixOf_eq_false hne (h c (mem_cons_self ..))
    rw [cons_append, occursIn, hhere, Bool.false_or, ih fun c hc => h c (mem_cons_of_mem _ hc)]

theorem occursIn_digits (hw : word.head?.any (! ·.isDigit)) :
    occursIn word (Nat.toDigits 10 n ++ rest) = occursIn word rest := by
  refine occursIn_append (by rintro rfl; cases hw) fun c hc heq => ?_
  rw [heq] at hw
  simp [isDigit_toDigits n c hc] at hw

theorem accessOfType_texture : accessOfType (' ' :: (s!"texture_{rank}d<f32>").toList) = .read := by
  have htext : ' ' :: (s!"texture_{rank}d<f32>").toList
      = " texture_".toList ++ (Nat.toDigits 10 rank ++ "d<f32>".toList) := by
    show ' ' :: ("texture_" ++ toString rank ++ "d<f32>").toList = _
    simp only [String.toList_append, toList_toString_nat]
    rfl
  have hboth : occursIn "read_write>".toList (" texture_".toList ++ (Nat.toDigits 10 rank ++ "d<f32>".toList))
      = occursIn "read_write>".toList (Nat.toDigits 10 rank ++ "d<f32>".toList) := rfl
  have hwrite : occursIn "write>".toList (" texture_".toList ++ (Nat.toDigits 10 rank ++ "d<f32>".toList))
      = occursIn "write>".toList (Nat.toDigits 10 rank ++ "d<f32>".toList) := rfl
  rw [htext, accessOfType, hboth, hwrite, occursIn_digits (by decide), occursIn_digits (by decide)]
  decide

theorem bindingType_storageTexture {id : Nat} :
    ∃ (rank : Nat) (f : TexelFormat), bindingType t (.storageTexture id)
      = s!"texture_storage_{rank}d<{f.name}, write>" := by
  have hformat : ((t.kernel.texture? id).map fun x => x.format.name).getD "rgba32float"
      = (((t.kernel.texture? id).map TextureInfo.format).getD .rgba32float).name := by
    cases t.kernel.texture? id <;> rfl
  refine ⟨((t.kernel.texture? id).map TextureInfo.rank).getD 2,
    ((t.kernel.texture? id).map TextureInfo.format).getD .rgba32float, ?_⟩
  rw [← hformat]
  rfl

theorem accessOfType_storageTexture :
    accessOfType (' ' :: (s!"texture_storage_{rank}d<{f.name}, write>").toList) = .write := by
  have htext : ' ' :: (s!"texture_storage_{rank}d<{f.name}, write>").toList
      = " texture_storage_".toList ++ (Nat.toDigits 10 rank ++ (s!"d<{f.name}, write>").toList) := by
    show ' ' :: ("texture_storage_" ++ toString rank ++ "d<" ++ f.name ++ ", write>").toList
      = _ ++ (_ ++ ("d<" ++ f.name ++ ", write>").toList)
    simp only [String.toList_append, toList_toString_nat, append_assoc]
    rfl
  have hboth (X : List Char) : occursIn "read_write>".toList (" texture_storage_".toList ++ X)
      = occursIn "read_write>".toList X := rfl
  have hwrite (X : List Char) : occursIn "write>".toList (" texture_storage_".toList ++ X)
      = occursIn "write>".toList X := rfl
  rw [htext, accessOfType, hboth, hwrite, occursIn_digits (by decide), occursIn_digits (by decide)]
  cases f <;> decide

theorem accessOfType_bindingType (t : Target) (h : kind.isBuffer = false) :
    accessOfType (' ' :: (bindingType t kind).toList) = (variableOf t kind).2 := by
  cases kind with
  | field id | args | rets | shared => cases h
  | texture id =>
    exact accessOfType_texture
  | storageTexture id =>
    obtain ⟨rank, f, htype⟩ := bindingType_storageTexture
    rw [htype]
    exact accessOfType_storageTexture
  | sampler id => exact (by decide : accessOfType (' ' :: "sampler".toList) = .read)

/-! ## 3. Declarations -/

def accessPart (b : Binding) : List Char :=
  if b.kind.isBuffer then "<".toList ++ ("storage".toList ++
    (",".toList ++ (' ' :: (b.access.name.toList ++ ">".toList))))
  else []

theorem toList_bindingDecl {b : Binding} :
    (bindingDecl t b).toList ++ rest = "@group".toList ++ ("(".toList ++ (Nat.toDigits 10 b.group ++ (")".toList ++
      (' ' :: ("@binding".toList ++ ("(".toList ++ (Nat.toDigits 10 b.binding ++ (")".toList ++ (' ' :: ("var".toList ++
        (accessPart b ++ (' ' :: (b.name.toList ++ (":".toList ++ (' ' :: (bindingType t b.kind).toList ++
          ';' :: rest))))))))))))))) := by
  have hvar : (if b.kind.isBuffer then s!"var<storage, {b.access.name}>" else "var").toList
      = "var".toList ++ accessPart b := by
    unfold accessPart
    split
    · show ("var<storage, " ++ b.access.name ++ ">").toList = _
      simp only [String.toList_append]
      rfl
    · rfl
  show ("@group(" ++ toString b.group ++ ") @binding(" ++ toString b.binding ++ ") "
    ++ (if b.kind.isBuffer then s!"var<storage, {b.access.name}>" else "var") ++ " " ++ b.name ++ ": "
    ++ bindingType t b.kind ++ ";").toList ++ rest = _
  simp only [String.toList_append, toList_toString_nat, hvar, append_assoc]
  rfl

theorem variableOf_ne_nil (t : Target) (kind : ResourceKind) :
    (variableOf t kind).1.toList ≠ [] := by
  cases kind with
  | field id =>
    obtain ⟨tail, hname, -⟩ := toList_fieldName t.kernel id
    intro h
    cases hname.symm.trans h
  | args => exact (by decide : "args".toList ≠ [])
  | rets => exact (by decide : "rets".toList ≠ [])
  | shared => exact (by decide : "global_tmps".toList ≠ [])
  | texture id => exact fun h => by cases (toList_nat "tex_" id).symm.trans h
  | storageTexture id => exact fun h => by cases (toList_nat "storage_tex_" id).symm.trans h
  | sampler id => exact fun h => by cases (toList_nat "sampler_" id).symm.trans h

theorem takes_binding (t : Target) (h : kind.IsWord) {number : Nat} (hn : number < 2 ^ 32) :
    Takes binding ((bindingDecl t (bindingOf t kind number)).toList ++ rest) (bindingOf t kind number) rest := by
  have hword := over_word_variableOf t kind
  have hne := variableOf_ne_nil t kind
  have hname {rest : List Char} (hr : Stops isWordChar rest) :
      Takes identifier ((variableOf t kind).1.toList ++ rest) (variableOf t kind).1 rest := by
    have hread := takes_identifier hne hword hr
    rwa [String.ofList_toList] at hread
  have hsemicolon : ';' ∉ ' ' :: (bindingType t kind).toList := by
    rintro (_ | ⟨_, hc⟩)
    exact absurd (over_bindingType t kind _ hc) (by decide)
  rw [toList_bindingDecl]
  refine (takes_attributeNumber "@group" (n := 0) (fun _ => rfl) (by decide)).bind ?_
  refine ((takes_attributeNumber "@binding" (fun _ => rfl) hn).space skips_expect.bind).bind ?_
  refine ((takes_expect "var" rfl).space skips_expect).bind ?_
  by_cases hbuffer : kind.isBuffer
  · rw [accessPart, if_pos (show (bindingOf t kind number).kind.isBuffer from hbuffer)]
    simp only [append_assoc, cons_append]
    refine takes_accessMode.bind (((hname (by rfl)).space skips_modify).bind ?_)
    refine (takes_expect ":" rfl).bind ((takes_untilSemicolon hsemicolon).bind ?_)
    rw [ofName?_variableOf t h]
    exact .pure _ rest
  · rw [accessPart, if_neg (show ¬ (bindingOf t kind number).kind.isBuffer from hbuffer)]
    refine ((takes_accessMode_none hne hword).space skips_modify.bind).bind ((hname (by rfl)).bind ?_)
    refine (takes_expect ":" rfl).bind ((takes_untilSemicolon hsemicolon).bind ?_)
    rw [ofName?_variableOf t h]
    have haccess := accessOfType_bindingType t (Bool.not_eq_true _ ▸ hbuffer)
    rw [haccess]
    exact .pure _ rest

end ArrayKernel.Shader
