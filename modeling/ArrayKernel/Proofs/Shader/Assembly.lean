import ArrayKernel.Proofs.Shader.Declaration
import Mathlib.Data.List.Perm.Subperm

/-!
# The text of a shader, read back

Without its comment, the text is the declarations, some helpers and the entry point. The only
attributes in it are those of the declarations and of the entry point, so reading finds each of them
and nothing else.
-/

namespace ArrayKernel.Shader

open IR Text Number List

variable {r : Resources} {t : Target} {kind : ResourceKind} {rest word : List Char}
  {ls : List String} {c : Char} {fields : List FieldInfo} {textures : List TextureInfo}
  {e : Emitter} {size : Nat} {parallel : Bool}

/-! ## 1. The text without comments -/

def linesText (ls : List String) : List Char := ls.flatMap fun l => l.toList ++ ['\n']

theorem linesText_append {ms : List String} : linesText (ls ++ ms) = linesText ls ++ linesText ms :=
  flatMap_append

theorem toList_lines (h : ls ≠ []) : ("\n".intercalate ls ++ "\n").toList = linesText ls := by
  rw [String.toList_append, String.toList_intercalate]
  induction ls with
  | nil => exact absurd rfl h
  | cons l ls ih =>
    cases ls with
    | nil => simp [linesText]
    | cons m ls =>
      have ih := ih (cons_ne_nil m ls)
      rw [map_cons] at ih
      rw [map_cons, map_cons, intercalate_cons_cons, append_assoc, ih]
      simp [linesText]

theorem mem_linesText (h : c ∈ linesText ls) : c = '\n' ∨ ∃ l ∈ ls, c ∈ l.toList := by
  obtain ⟨l, hl, hc⟩ := mem_flatMap.1 h
  rcases mem_append.1 hc with hc | hc
  · exact .inr ⟨l, hl, hc⟩
  · exact .inl (mem_singleton.1 hc)

def entryLines (size : Nat) : List String :=
  ["", s!"@compute @workgroup_size({size})", "fn main(@builtin(global_invocation_id) gid: vec3<u32>) \x7b"]

def helperLines (e : Emitter) : List String :=
  (if e.floorDiv then ["", floorDivSource] else []) ++ (if e.random then ["", randomSource] else [])

def taskNote (t : Target) (parallel : Bool) : String :=
  " task " ++ toString t.index ++ " (" ++ (if parallel then "parallel" else "serial") ++ ")"

theorem over_taskNote : Over (· != '\n') (taskNote t parallel) := by
  have hindex : Over (· != '\n') (toString t.index) :=
    over_nat (fun c hc => bne_iff_ne.2 fun h => absurd hc (by rw [h]; decide))
  exact .fill₂ rfl hindex rfl (.ite (.literal rfl) (.literal rfl)) rfl

theorem toList_assemble :
    (assemble t parallel size e).toList = '/' :: '/'
      :: (" ".toList ++ (t.kernel.name.toList ++ (taskNote t parallel).toList)
      ++ '\n' :: (linesText (e.bindings.map (bindingDecl t)) ++
        (linesText (helperLines e) ++ (linesText (entryLines size)
          ++ linesText (e.lines.toList ++ ["\x7d"]))))) := by
  have hnote : "// " ++ t.kernel.name ++ " task " ++ toString t.index ++ " ("
    ++ (if parallel then "parallel" else "serial")
      ++ ")" = "// " ++ (t.kernel.name ++ taskNote t parallel) := by
    simp only [taskNote, String.append_assoc]
  show ("\n".intercalate (["// " ++ t.kernel.name ++ " task " ++ toString t.index ++ " ("
    ++ (if parallel then "parallel" else "serial") ++ ")"] ++ e.bindings.map (bindingDecl t) ++ helperLines e
    ++ entryLines size ++ e.lines.toList ++ ["\x7d"]) ++ "\n").toList = _
  rw [toList_lines (by simp), hnote]
  simp only [linesText_append]
  simp only [linesText, flatMap_cons, String.toList_append, append_assoc]
  rfl

theorem uncommented_helperLines : Uncommented (linesText (helperLines e)) := by
  have hend : Uncommented "\n".toList := .literal rfl
  have hdiv : Uncommented floorDivSource.toList := by
    refine .intercalate hend ?_
    repeat' first | exact forall_mem_nil _ | refine forall_mem_cons.2 ⟨.literal rfl, ?_⟩
  have hrandom : Uncommented randomSource.toList := by
    refine .intercalate hend ?_
    repeat' first | exact forall_mem_nil _ | refine forall_mem_cons.2 ⟨.literal rfl, ?_⟩
  have hlines {source : String} (h : Uncommented source.toList) : Uncommented (linesText ["", source]) := by
    exact hend.append ((h.append hend).append fun _ => rfl)
  rw [helperLines, linesText_append]
  refine .append ?_ ?_
  · split
    · exact hlines hdiv
    · exact fun _ => rfl
  · split
    · exact hlines hrandom
    · exact fun _ => rfl

theorem clean_helperLines : ∀ l ∈ helperLines e, Clean l := by
  have hend : Clean "\n" := .literal rfl
  have hdiv : Clean floorDivSource := by
    refine .intercalate hend ?_
    repeat' first | exact forall_mem_nil _ | refine forall_mem_cons.2 ⟨.literal rfl, ?_⟩
  have hrandom : Clean randomSource := by
    refine .intercalate hend ?_
    repeat' first | exact forall_mem_nil _ | refine forall_mem_cons.2 ⟨.literal rfl, ?_⟩
  have hlines {b : Bool} {source : String} (h : Clean source) : ∀ l ∈ if b then ["", source] else [], Clean l := by
    split
    · exact forall_mem_cons.2 ⟨.literal rfl, forall_mem_cons.2 ⟨h, forall_mem_nil _⟩⟩
    · exact forall_mem_nil _
  exact fun l hl => (mem_append.1 hl).elim (hlines hdiv l) (hlines hrandom l)

/-! ## 2. Attributes -/

def isPlain (c : Char) : Bool := c != '@' && c != '/'

theorem isPlain_of_type (h : isTypeChar c) : isPlain c := by
  simp only [isPlain, Bool.and_eq_true, bne_iff_ne]
  constructor
  · rintro rfl
    exact absurd h (by decide)
  · rintro rfl
    exact absurd h (by decide)

theorem over_plain_nat (n : Nat) : Over isPlain (toString n) :=
  over_type_nat.mono fun _ => isPlain_of_type

theorem bindingDecl_eq (t : Target) (kind : ResourceKind) (number : Nat) :
    ∃ mid tail : String, Over isPlain mid ∧ Over isPlain tail
      ∧ bindingDecl t (bindingOf t kind number) = "@group(" ++ (mid ++ ("@binding" ++ tail)) := by
  have hname : Over isPlain (variableOf t kind).1 :=
    (over_word_variableOf t kind).mono fun _ h => isPlain_of_type (isTypeChar_of_word h)
  have htype : Over isPlain (bindingType t kind) := (over_bindingType t kind).mono fun _ => isPlain_of_type
  have hvar : Over isPlain (if kind.isBuffer then s!"var<storage, {(variableOf t kind).2.name}>" else "var") := by
    refine .ite (.fill₁ rfl ?_ rfl) (.literal rfl)
    cases (variableOf t kind).2 <;> exact .literal rfl
  refine ⟨toString 0 ++ ") ", "(" ++ toString number ++ ") "
    ++ (if kind.isBuffer then s!"var<storage, {(variableOf t kind).2.name}>" else "var") ++ " " ++ (variableOf t kind).1
    ++ ": " ++ bindingType t kind ++ ";", ?_, ?_, ?_⟩
  · exact .append (over_plain_nat 0) (.literal rfl)
  · exact .fill₄ rfl (over_plain_nat number) rfl hvar rfl hname rfl htype rfl
  · show "@group(" ++ toString 0 ++ ") @binding(" ++ toString number ++ ") "
      ++ (if kind.isBuffer then s!"var<storage, {(variableOf t kind).2.name}>" else "var") ++ " "
        ++ (variableOf t kind).1
      ++ ": " ++ bindingType t kind ++ ";" = _
    have hcut : ") @binding(" = ") " ++ ("@binding" ++ "(") := by decide
    simp only [hcut, String.append_assoc]

theorem not_mem_of_plain {s : String} (h : Over isPlain s) : '@' ∉ s.toList ∧ '/' ∉ s.toList :=
  ⟨fun hc => absurd (h _ hc) (by decide), fun hc => absurd (h _ hc) (by decide)⟩

/-- The binding is one that reading can tell: its number and the id of its resource are words. -/
def Readable (t : Target) (b : Binding) : Prop :=
  ∃ kind number, kind.IsWord ∧ number < 2 ^ 32 ∧ b = bindingOf t kind number

variable {b : Binding} {bs : List Binding}

theorem passes_bindingDecl (hb : Readable t b) (hw : word.head? = some '@')
    (hgroup : differ word "@group".toList) (hbinding : differ word "@binding".toList) :
    Passes word ((bindingDecl t b).toList ++ ['\n']) := by
  obtain ⟨kind, number, -, -, rfl⟩ := hb
  obtain ⟨mid, tail, hmid, htail, heq⟩ := bindingDecl_eq t kind number
  have hstart : Passes word ("@group".toList ++ "(".toList) :=
    .append (.other hw (by decide) hgroup) (.of_clean hw (by decide))
  have hsecond : Passes word "@binding".toList := .other hw (by decide) hbinding
  have hend : Passes word (tail.toList ++ ['\n']) :=
    .append (.of_clean hw (not_mem_of_plain htail).1) (.of_clean hw (by decide))
  have hrest := (Passes.of_clean hw (not_mem_of_plain hmid).1).append (hsecond.append hend)
  rw [heq]
  simp only [String.toList_append, append_assoc]
  exact hstart.append hrest

theorem passes_linesText (hbs : ∀ b ∈ bs, Readable t b) (hw : word.head? = some '@')
    (hgroup : differ word "@group".toList) (hbinding : differ word "@binding".toList) :
    Passes word (linesText (bs.map (bindingDecl t))) := by
  induction bs with
  | nil => exact .nil word
  | cons b bs ih =>
    exact (passes_bindingDecl (hbs b (mem_cons_self ..)) hw hgroup hbinding).append
      (ih fun b hb => hbs b (mem_cons_of_mem _ hb))

theorem mapM_binding (hbs : ∀ b ∈ bs, Readable t b) (hrest : Passes "@group".toList rest)
    (before : Option Char) (offset : Nat) :
    (occurrences "@group".toList before ⟨offset, linesText (bs.map (bindingDecl t)) ++ rest⟩).mapM
      (fun x => binding.run' x.2) = .ok bs := by
  induction bs generalizing before offset with
  | nil =>
    rw [map_nil, linesText, flatMap_nil, nil_append, hrest.eq_nil]
    rfl
  | cons b bs ih =>
    obtain ⟨kind, number, hkind, hnumber, rfl⟩ := hbs b (mem_cons_self ..)
    obtain ⟨mid, tail, hmid, htail, heq⟩ := bindingDecl_eq t kind number
    set more := linesText (bs.map (bindingDecl t)) ++ rest with hmore
    have hline : linesText ((bindingOf t kind number :: bs).map (bindingDecl t)) ++ rest
        = (bindingDecl t (bindingOf t kind number)).toList ++ ('\n' :: more) := by
      simp [linesText, hmore]
    have hcut : (bindingDecl t (bindingOf t kind number)).toList ++ ('\n' :: more) = "@group".toList
        ++ ("(".toList ++ (mid.toList ++ ("@binding".toList ++ (tail.toList ++ ['\n']))) ++ more) := by
      have hopen : "@group(".toList = "@group".toList ++ "(".toList := rfl
      simp only [heq, String.toList_append, hopen, append_assoc, cons_append, nil_append]
    have hafter : Passes "@group".toList ("group".toList
        ++ ("(".toList ++ (mid.toList ++ ("@binding".toList ++ (tail.toList ++ ['\n']))))) := by
      refine .append (.of_clean rfl (by decide)) (.append (.of_clean rfl (by decide)) ?_)
      refine .append (.of_clean rfl (not_mem_of_plain hmid).1) (.append (.other rfl (by decide) (by decide)) ?_)
      exact .append (.of_clean rfl (not_mem_of_plain htail).1) (.of_clean rfl (by decide))
    have hread : binding.run' ⟨offset, (bindingDecl t (bindingOf t kind number)).toList ++ ('\n' :: more)⟩ = .ok _ :=
      (takes_binding t hkind hnumber).run' offset
    have hmany : (occurrences "@group".toList (some '@') ⟨offset + '@'.utf8Size, "@group".toList.tail
        ++ ("(".toList ++ (mid.toList ++ ("@binding".toList ++ (tail.toList ++ ['\n']))) ++ more)⟩).mapM
          (fun x => binding.run' x.2) = .ok bs := by
      refine (congrArg _ (hafter _ _ more)).trans (ih (fun b hb => hbs b (mem_cons_of_mem _ hb)) _ _)
    rw [hline, hcut, occurrences_cons "@group".toList _ (c := '@') rfl (by rfl), mapM_cons, hmany, ← hcut, hread]
    rfl

/-! ## 3. The order of bindings -/

def Binding.Precedes (b c : Binding) : Prop := b.group = c.group ∧ b.binding < c.binding

theorem pairwise_numbered (h : Numbered r t bs) : bs.Pairwise Binding.Precedes := by
  obtain ⟨kinds, -, -, rfl⟩ := h
  rw [pairwise_iff_getElem]
  intro i j hi hj hij
  rw [getElem_mapIdx, getElem_mapIdx]
  exact ⟨rfl, hij⟩

def allKinds (fields : List FieldInfo) (textures : List TextureInfo) : List ResourceKind :=
  [.args, .rets, .shared] ++ fields.map (fun f => .field f.id)
    ++ textures.flatMap fun x => [.texture x.id, .storageTexture x.id, .sampler x.id]

theorem length_allKinds :
    (allKinds fields textures).length = fields.length + 3 * textures.length + 3 := by
  simp [allKinds]
  omega

theorem mem_allKinds (h : kind.Of ⟨(· ∈ fields), (· ∈ textures)⟩) :
    kind ∈ allKinds fields textures := by
  simp only [allKinds, mem_append, mem_map, mem_flatMap, mem_cons, not_mem_nil, or_false]
  cases kind with
  | field id =>
    obtain ⟨f, hf, rfl⟩ := h
    exact .inl (.inr ⟨f, hf, rfl⟩)
  | args => exact .inl (.inl (.inl rfl))
  | rets => exact .inl (.inl (.inr (.inl rfl)))
  | shared => exact .inl (.inl (.inr (.inr rfl)))
  | texture id =>
    obtain ⟨x, hx, rfl⟩ := h
    exact .inr ⟨x, hx, .inl rfl⟩
  | storageTexture id =>
    obtain ⟨x, hx, rfl⟩ := h
    exact .inr ⟨x, hx, .inr (.inl rfl)⟩
  | sampler id =>
    obtain ⟨x, hx, rfl⟩ := h
    exact .inr ⟨x, hx, .inr (.inr rfl)⟩

/-- Bindings can be read if there are few enough resources, and their ids are words. -/
theorem readable_numbered (h : Numbered ⟨(· ∈ fields), (· ∈ textures)⟩ t bs)
    (hfields : ∀ f ∈ fields, f.id < 2 ^ 32) (htextures : ∀ x ∈ textures, x.id < 2 ^ 32)
    (hfew : fields.length + 3 * textures.length + 3 ≤ 2 ^ 32) : ∀ b ∈ bs, Readable t b := by
  obtain ⟨kinds, hnodup, hkinds, rfl⟩ := h
  have hlength : kinds.length ≤ fields.length + 3 * textures.length + 3 := by
    rw [← length_allKinds]
    exact (hnodup.subperm fun k hk => mem_allKinds (hkinds k hk)).length_le
  have hword : ∀ k ∈ kinds, k.IsWord := by
    intro k hk
    have hof := hkinds k hk
    cases k with
    | field id =>
      obtain ⟨f, hf, rfl⟩ := hof
      exact hfields f hf
    | args | rets | shared => trivial
    | _ id =>
      obtain ⟨x, hx, rfl⟩ := hof
      exact htextures x hx
  intro b hb
  obtain ⟨i, hi, rfl⟩ := mem_mapIdx.1 hb
  exact ⟨_, i, hword _ (getElem_mem hi), by omega, rfl⟩

theorem insertBinding_eq (h : ∀ c ∈ bs, c.Precedes b) : insertBinding b bs = bs ++ [b] := by
  induction bs with
  | nil => rfl
  | cons c bs ih =>
    obtain ⟨hgroup, hnumber⟩ := h c (mem_cons_self ..)
    rw [insertBinding, if_neg (by omega), ih fun c hc => h c (mem_cons_of_mem _ hc), cons_append]

theorem foldl_insertBinding {sorted : List Binding} (h : (sorted ++ bs).Pairwise Binding.Precedes) :
    bs.foldl (fun sorted b => insertBinding b sorted) sorted = sorted ++ bs := by
  induction bs generalizing sorted with
  | nil => rw [foldl_nil, append_nil]
  | cons b bs ih =>
    have hb : ∀ c ∈ sorted, c.Precedes b := fun c hc =>
      (pairwise_append.1 h).2.2 c hc b (mem_cons_self ..)
    rw [append_cons] at h
    rw [foldl_cons, insertBinding_eq hb, ih h, ← append_cons]

theorem foldl_distinct {seen : List Binding} (h : (seen ++ bs).Pairwise Binding.Precedes) :
    bs.foldl (fun seen b => if b ∈ seen then seen else seen ++ [b]) seen = seen ++ bs := by
  induction bs generalizing seen with
  | nil => rw [foldl_nil, append_nil]
  | cons b bs ih =>
    have hb : b ∉ seen := fun hm =>
      absurd ((pairwise_append.1 h).2.2 b hm b (mem_cons_self ..)).2 (Nat.lt_irrefl _)
    rw [append_cons] at h
    rw [foldl_cons, if_neg hb, ih h, ← append_cons]

theorem bindingsOf_eq {intro : List Char} (hbs : Numbered r t bs)
    (hreadable : ∀ b ∈ bs, Readable t b) (hintro : Passes "@group".toList intro)
    (hrest : Passes "@group".toList rest) :
    bindingsOf (intro ++ (linesText (bs.map (bindingDecl t)) ++ rest)) = .ok bs := by
  have hread : (attributes "@group" (intro ++ (linesText (bs.map (bindingDecl t)) ++ rest))).mapM
      (fun r => binding.run' r) = .ok bs := by
    rw [attributes, mapM_map, hintro]
    exact mapM_binding hreadable hrest _ _
  rw [bindingsOf, hread]
  show Except.ok _ = _
  rw [foldl_distinct (pairwise_numbered hbs), nil_append,
    foldl_insertBinding (pairwise_numbered hbs), nil_append]

/-! ## 4. The whole text -/

theorem uncommented_decls (hbs : ∀ b ∈ bs, Readable t b) :
    Uncommented (linesText (bs.map (bindingDecl t))) := by
  refine .of_not_mem fun hc => ?_
  rcases mem_linesText hc with hc | ⟨l, hl, hc⟩
  · cases hc
  · obtain ⟨b, hb, rfl⟩ := mem_map.1 hl
    obtain ⟨kind, number, -, -, rfl⟩ := hbs b hb
    obtain ⟨mid, tail, hmid, htail, heq⟩ := bindingDecl_eq t kind number
    simp only [heq, String.toList_append, mem_append] at hc
    rcases hc with hc | hc | hc | hc
    · exact absurd hc (by decide)
    · exact (not_mem_of_plain hmid).2 hc
    · exact absurd hc (by decide)
    · exact (not_mem_of_plain htail).2 hc

def sizeText (size : Nat) : List Char :=
  "@workgroup_size".toList ++ ("(".toList ++ (Nat.toDigits 10 size ++ (")".toList ++ ['\n'])))

def attributesText (size : Nat) : List Char := "@compute".toList ++ (" ".toList ++ sizeText size)

def mainText (body : List Char) : List Char :=
  " ".toList ++ ("main".toList ++ ("(".toList ++ ("@builtin".toList
    ++ ("(global_invocation_id) gid: vec3<u32>) \x7b\n".toList ++ body))))

def entryText (size : Nat) (body : List Char) : List Char :=
  attributesText size ++ ("fn".toList ++ mainText body)

theorem linesText_entryLines :
    linesText (entryLines size) ++ rest = '\n' :: entryText size rest := by
  have hsize : (s!"@compute @workgroup_size({size})").toList
      = "@compute @workgroup_size(".toList ++ (Nat.toDigits 10 size ++ ")".toList) := by
    show ("@compute @workgroup_size(" ++ toString size ++ ")").toList = _
    rw [String.toList_append, String.toList_append, toList_toString_nat, append_assoc]
  unfold entryText attributesText sizeText mainText
  simp only [linesText, entryLines, flatMap_cons, hsize, append_assoc]
  rfl

theorem uncommented_entryLines : Uncommented (linesText (entryLines size)) := by
  have hlines : ∀ l ∈ entryLines size, Over (· != '/') l := by
    have hdigits : Over (· != '/') (toString size) :=
      (over_plain_nat size).mono fun c hc => by simp_all [isPlain]
    refine forall_mem_cons.2 ⟨.literal rfl, forall_mem_cons.2 ⟨.fill₁ rfl hdigits rfl, ?_⟩⟩
    exact forall_mem_cons.2 ⟨.literal rfl, forall_mem_nil _⟩
  refine .of_not_mem fun hc => ?_
  rcases mem_linesText hc with hc | ⟨l, hl, hc⟩
  · cases hc
  · exact absurd (hlines l hl _ hc) (by decide)

theorem not_mem_linesText (h : ∀ l ∈ ls, Clean l) : '@' ∉ linesText ls := fun hc => by
  rcases mem_linesText hc with hc | ⟨l, hl, hc⟩
  · cases hc
  · exact absurd (h l hl _ hc) (by decide)

theorem stripComments_assemble (hname : '\n' ∉ t.kernel.name.toList) (he : Tidy r t e)
    (hbs : ∀ b ∈ e.bindings, Readable t b) (parallel : Bool) :
    ∃ intro mid body, '@' ∉ intro ∧ '@' ∉ mid ∧ '@' ∉ body ∧ stripComments (assemble t parallel size e).toList
      = intro ++ (linesText (e.bindings.map (bindingDecl t)) ++ (mid ++ entryText size body)) := by
  have hnote : '\n' ∉ " ".toList ++ (t.kernel.name.toList ++ (taskNote t parallel).toList) := by
    simp only [mem_append, not_or]
    exact ⟨by decide, hname, fun hc => absurd (over_taskNote _ hc) (by decide)⟩
  obtain ⟨n, hline⟩ := stripFrom_line hnote (linesText (e.bindings.map (bindingDecl t)) ++ (linesText (helperLines e)
    ++ (linesText (entryLines size) ++ linesText (e.lines.toList ++ ["\x7d"]))))
  have hbody : ∀ l ∈ e.lines.toList ++ ["\x7d"], Clean l := fun l hl => (mem_append.1 hl).elim
    (fun hl => he.lines l (Array.mem_toList_iff.1 hl)) fun hl => mem_singleton.1 hl ▸ .literal rfl
  refine ⟨' ' :: ' ' :: (.replicate n ' ' ++ ['\n']), linesText (helperLines e) ++ ['\n'],
    stripFrom .outside (linesText (e.lines.toList ++ ["\x7d"])), ?_, ?_, ?_, ?_⟩
  · simp [mem_replicate]
  · simp only [mem_append, not_or]
    exact ⟨not_mem_linesText clean_helperLines, by decide⟩
  · intro hc
    rcases (blanked_stripFrom ..).mem hc with hc | hc
    · exact not_mem_linesText hbody hc
    · cases hc
  · rw [toList_assemble, stripComments, stripFrom, hline, uncommented_decls hbs,
      uncommented_helperLines, uncommented_entryLines, linesText_entryLines]
    simp only [cons_append, append_assoc, nil_append]

/-- The entry point holds the stage, the workgroup size and the argument of the function, and no
other attribute. -/
theorem passes_entryText {body : List Char} (size : Nat) (hw : word.head? = some '@')
    (hbody : '@' ∉ body) (hcompute : differ word "@compute".toList)
    (hsize : differ word "@workgroup_size".toList) (hbuiltin : differ word "@builtin".toList) :
    Passes word (entryText size body) := by
  have hdigits : '@' ∉ Nat.toDigits 10 size := fun hc => absurd (isDigit_toDigits size _ hc) (by decide)
  have hplain {s : String} (hs : '@' ∉ s.toList) : Passes word s.toList := .of_clean hw hs
  have hsizeText : Passes word (sizeText size) :=
    .append (.other hw (by decide) hsize) (.append (hplain (by decide))
      (.append (.of_clean hw hdigits) (.append (hplain (by decide)) (.of_clean hw (by decide)))))
  have hmain : Passes word (mainText body) :=
    .append (hplain (by decide)) (.append (hplain (by decide)) (.append (hplain (by decide))
      (.append (.other hw (by decide) hbuiltin) (.append (hplain (by decide)) (.of_clean hw hbody)))))
  refine .append (.append (.other hw (by decide) hcompute) (.append (hplain (by decide)) hsizeText)) ?_
  exact .append (hplain (by decide)) hmain

variable {intro mid body : List Char} {size : Nat}

theorem occurrences_compute (before : Option Char) (offset : Nat) :
    ∃ more, occurrences "@compute".toList before ⟨offset, entryText size body⟩
      = (before, ⟨offset, entryText size body⟩) :: more :=
  ⟨_, occurrences_cons "@compute".toList _ rfl (by rfl) before offset⟩

theorem firstStage?_eq (hbs : ∀ b ∈ bs, Readable t b) (hintro : '@' ∉ intro) (hmid : '@' ∉ mid)
    (hbody : '@' ∉ body) :
    ∃ offset, firstStage? (intro ++ (linesText (bs.map (bindingDecl t)) ++ (mid ++ entryText size body)))
      = some (⟨offset, entryText size body⟩, .compute) := by
  set text := intro ++ (linesText (bs.map (bindingDecl t)) ++ (mid ++ entryText size body)) with htext
  have habsent (name : String) (hw : name.toList.head? = some '@')
      (h : ∀ other ∈ ["@group", "@binding", "@compute", "@workgroup_size", "@builtin"],
        differ name.toList other.toList) :
      attributes name text = [] := by
    have hdecls := passes_linesText hbs hw (h _ (by decide)) (h _ (by decide))
    have hentry := passes_entryText size hw hbody (h _ (by decide)) (h _ (by decide)) (h _ (by decide))
    have hall := (Passes.of_clean hw hintro).append (hdecls.append ((Passes.of_clean hw hmid).append hentry))
    rw [attributes, htext, hall.eq_nil, map_nil]
  have hcompute : ∃ offset, (attributes "@compute" text).head? = some ⟨offset, entryText size body⟩ := by
    have hw : "@compute".toList.head? = some '@' := rfl
    have hdecls := passes_linesText hbs hw (by decide) (by decide)
    have hbefore := (Passes.of_clean hw hintro).append (hdecls.append (.of_clean hw hmid))
    have hcut : text = intro ++ (linesText (bs.map (bindingDecl t)) ++ mid) ++ entryText size body := by
      simp only [htext, append_assoc]
    obtain ⟨more, hfound⟩ := occurrences_compute
      ((intro ++ (linesText (bs.map (bindingDecl t)) ++ mid)).getLast?.or none)
      (0 + byteLength (intro ++ (linesText (bs.map (bindingDecl t)) ++ mid)))
    rw [attributes, hcut, hbefore, hfound]
    exact ⟨_, rfl⟩
  obtain ⟨offset, hcompute⟩ := hcompute
  have hvertex := habsent "@vertex" rfl (by decide)
  have hfragment := habsent "@fragment" rfl (by decide)
  refine ⟨offset, ?_⟩
  simp only [firstStage?, stages, filterMap_cons, hcompute, hvertex, hfragment]
  rfl

theorem takes_main : ∃ rest, Takes identifier (mainText body) "main" rest :=
  ⟨_, (takes_identifier (w := "main".toList) (by decide) (all_eq_true.1 rfl) (by rfl)).space skips_modify⟩

theorem find?_function :
    (occurrences "fn".toList none ⟨0, entryText size body⟩).find? (fun x => !x.1.any isWordChar)
        = some (some '\n', ⟨0 + byteLength (attributesText size), "fn".toList ++ mainText body⟩) := by
  have hf : 'f' ∉ attributesText size := by
    unfold attributesText sizeText
    simp only [mem_append, not_or]
    refine ⟨by decide, by decide, by decide, by decide, ?_, by decide, by decide⟩
    exact fun hc => absurd (isDigit_toDigits size _ hc) (by decide)
  have hpasses : Passes "fn".toList (attributesText size) :=
    .of_head (by decide) fun c hc heq => hf ((Option.some.inj heq : 'f' = c) ▸ hc)
  have hlast : (attributesText size).getLast?.or none = some '\n' := by
    unfold attributesText sizeText
    simp only [List.getLast?_append, getLast?_singleton, Option.some_or]
  have hfound := occurrences_cons "fn".toList (mainText body) rfl rfl (some '\n')
  unfold entryText
  rw [hpasses, hlast, hfound]
  rfl

theorem find?_size :
    ∃ offset, (attributes "@workgroup_size" (entryText size body)).find?
        (fun r => r.offset < 0 + byteLength (attributesText size))
      = some ⟨offset, sizeText size ++ ("fn".toList ++ mainText body)⟩ := by
  have hcut : entryText size body
      = "@compute".toList ++ " ".toList ++ (sizeText size ++ ("fn".toList ++ mainText body)) := by
    unfold entryText attributesText
    simp only [append_assoc]
  have hpasses : Passes "@workgroup_size".toList ("@compute".toList ++ " ".toList) :=
    .append (.other rfl (by decide) (by decide)) (.of_clean rfl (by decide))
  have hfound (before : Option Char) (offset : Nat) : ∃ more, occurrences
      "@workgroup_size".toList before ⟨offset, sizeText size ++ ("fn".toList ++ mainText body)⟩
        = (before, ⟨offset, sizeText size ++ ("fn".toList ++ mainText body)⟩) :: more := by
    exact ⟨_, occurrences_cons "@workgroup_size".toList _ rfl (by rfl) before offset⟩
  have hlt : 0 + byteLength ("@compute".toList ++ " ".toList) < 0 + byteLength (attributesText size) := by
    have hone : 0 < byteLength ['\n'] := by decide
    unfold attributesText sizeText
    simp only [byteLength_append]
    omega
  obtain ⟨more, hfound⟩ := hfound (("@compute".toList ++ " ".toList).getLast?.or none)
    (0 + byteLength ("@compute".toList ++ " ".toList))
  refine ⟨0 + byteLength ("@compute".toList ++ " ".toList), ?_⟩
  rw [attributes, hcut, hpasses, hfound, map_cons]
  exact find?_cons_of_pos (decide_eq_true hlt)

theorem reflect_eq {source : String} (hsource : stripComments source.toList
      = intro ++ (linesText (bs.map (bindingDecl t)) ++ (mid ++ entryText size body)))
    (hbs : Numbered r t bs) (hreadable : ∀ b ∈ bs, Readable t b) (hintro : '@' ∉ intro)
    (hmid : '@' ∉ mid) (hbody : '@' ∉ body)
    (hsize : size < 2 ^ 32) :
    reflect source = .ok { stage := .compute, entry := "main", workgroupSize := some (size, 1, 1), bindings := bs } := by
  have hentry : Passes "@group".toList (entryText size body) :=
    passes_entryText size rfl hbody (by decide) (by decide) (by decide)
  have hbindings := bindingsOf_eq hbs hreadable (.of_clean rfl hintro) (.append (.of_clean rfl hmid) hentry)
  obtain ⟨start, hstage⟩ := firstStage?_eq hreadable hintro hmid hbody
  obtain ⟨offset, hsizeAt⟩ := find?_size
  obtain ⟨rest, hmain⟩ := takes_main
  have hname : identifier.run' (.advance ⟨0 + byteLength (attributesText size), "fn".toList ++ mainText body⟩ 2)
      = .ok "main" := by
    have hskip : Reader.advance ⟨0 + byteLength (attributesText size), "fn".toList ++ mainText body⟩ 2 = _ :=
      advance_append _ "fn".toList (mainText body)
    rw [hskip]
    exact hmain.run' _
  have hread : workgroupSize.run' ⟨offset, sizeText size ++ ("fn".toList ++ mainText body)⟩ = .ok (size, 1, 1) := by
    unfold sizeText
    simp only [append_assoc]
    exact (takes_workgroupSize hsize).run' offset
  unfold reflect
  dsimp only
  rw [hsource, hbindings]
  refine (pure_bind bs _).trans ?_
  rw [hstage]
  dsimp only
  rw [find?_function]
  dsimp only
  rw [hname, hsizeAt]
  show ((some <$> workgroupSize.run' _) >>= _) = _
  rw [hread]
  rfl

end ArrayKernel.Shader
