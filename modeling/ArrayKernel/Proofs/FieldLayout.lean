import ArrayKernel.Program.Action
import ArrayKernel.Proofs.Field.Addresses
import ArrayKernel.Proofs.Sessions

/-!
# One layout for fields

Lowering, shaders, sessions and the program that prints fields all mean the same layout
(`FieldInfo.laidOut`). Addresses are compared modulo `m`: with `2 ^ 32` they are what a device
computes, with `0` they are exact as long as constants can hold them.
-/

namespace ArrayKernel

open ArrayKernel.Field IR Lowering Number Shader Surface List Session

/-! ## 1. Words and their types -/

theorem wordScalar_eq {part : Ty} (h : part.isStruct = false) (l : Leaf part) :
    wordScalar part = l.scalar := by
  cases l with
  | itself | component | entry => rfl
  | first | later => cases h

theorem getElem?_filled (f : FieldInfo) (value : Binary64) (i : f.Index) (l : Leaf f.elem) :
    (filled f value)[f.wordOf i l]? = some (fillWord value l.scalar) := by
  rw [← cycled_eq_filled, getElem?_cycled f.wordOf_lt, length_map, Ty.length_scalars, getElem?_map,
    f.getElem?_scalars_wordOf]
  rfl

theorem getElem?_printed (f : FieldInfo) (words : List UInt32) (i : f.Index) (l : Leaf f.elem) :
    (words.zipWith Literal.ofBits (cycled words.length f.elem.scalars))[f.wordOf i l]?
      = words[f.wordOf i l]?.map fun w => Literal.ofBits w l.scalar := by
  rw [getElem?_zipWith]
  by_cases h : f.wordOf i l < words.length
  · rw [getElem?_cycled h, Ty.length_scalars, f.getElem?_scalars_wordOf, getElem?_eq_getElem h]
    rfl
  · rw [getElem?_eq_none (Nat.le_of_not_lt h)]
    rfl

/-! ## 2. Addresses of parts -/

/-- The pointer that a shader writes for a place in a field stands for a part of an element: the
text of word `k` after the pointer has the value of the word of scalar `k` of the part. -/
def PointsTo (m : Int) (env : String → Int) (t : Target) (e : Emitter) (f : FieldInfo)
    (is : List Operand) (i : f.Index) {part : Ty} (p : Portion f.elem part) (o : Operand) : Prop :=
  ∀ id, ∃ x : LinearIndex,
    emitOp id (.globalPtr f.id is o) t e = ((), { e with
      lines := e.lines ++ ((x.declaration id).map (indentation e.depth ++ ·)).toArray
      ptrs := e.ptrs.insert id (f.id, (x.named id).address) })
    ∧ ∀ l : Leaf part, (x.named id).address.word l.offset = ((x.named id).shift l.offset).address.word 0
      ∧ (x.Declared m env id → ((x.named id).shift l.offset).value env ≡ (f.storageWord (i, p.leaf l)).val [ZMOD m])

theorem pointsTo {m : Int} {env : String → Int} {t : Target} {e : Emitter} {f : FieldInfo}
    {is : List Operand} {o : Operand} {part : Ty} (hf : t.kernel.field? f.id = some f)
    (hm : Keeps m 64 f.storage) (i : f.Index)
    (his : Forall₂ (fun o k => intValue (namedValues env t e) o = some ((k : Nat) : Int)) is i.coords)
    (p : Portion f.elem part) (ho : Stands m (namedValues env t e) True o p.start) :
    PointsTo m env t e f is i p o := by
  intro id
  refine ⟨fieldIndex t e f is o, emitOp_globalPtr hf e id is o,
    fun l => ⟨LinearIndex.word_shift _ _, fun hdeclared => ?_⟩⟩
  have hwithin := p.within
  have hword : position f.extents i.coords * f.elem.size + p.start + l.offset = (f.storageWord (i, p.leaf l)).val := by
    show _ = position f.extents i.coords * f.elem.size + (p.leaf l).offset
    rw [p.offset_leaf, add_assoc]
  have hindex := tracks_fieldIndex hm i his ho (by omega)
  have hshift := hindex.shift (hm.mono (by rw [hword]; exact (f.storageWord (i, p.leaf l)).isLt.le))
  rw [← hword]
  exact hdeclared.value_named.trans hshift.value

/-! ## 3. The layout -/

/-- All parts of the program agree on the layout of a field. -/
structure LaidOut (f : FieldInfo) : Prop where
  /-- The size is that of the storage. It is in range if all products on the way are. -/
  words (n : Nat) : f.words = .ok n ↔
    n = f.storage ∧ f.storage < UInt64.size ∧ ∀ ms, ms <+: f.extents → ms.prod < UInt64.size
  /-- Each word of the storage belongs to one scalar of one element. -/
  bijective : Function.Bijective f.storageWord
  /-- A chain of accesses in range lowers to a place whose pointer stands for the words of the part
  that it selects. -/
  addressed {m : Int} (hoffset : Keeps m 32 f.elem.size) (hword : Keeps m 64 f.storage)
    {env : String → Int} {t : Target}
    {e : Emitter} (hf : t.kernel.field? f.id = some f) {is : List Operand} {i : f.Index}
    (his : Forall₂ (fun o k => intValue (namedValues env t e) o = some ((k : Nat) : Int)) is i.coords)
    {chain : List Field.Access} {part : Ty} {p : Portion f.elem part}
    (hp : reach? (namedValues env t e) chain f.elem = some ⟨part, p⟩) (span : Span) :
    Gives m (namedValues env t e) (follow span (.static (.field f)) (.index is :: chain)) fun ok l =>
      ∃ o, l = .place (.global f is o part) ∧ (ok → PointsTo m env t e f is i p o)
  /-- The words of a part that is read or written whole are taken for what the types of the
  components say. -/
  decoded {part : Ty} (h : part.isStruct = false) (p : Portion f.elem part) (i : f.Index) (l : Leaf part) :
    f.elem.scalars[(f.storageWord (i, p.leaf l)).val % f.elem.size]? = some (wordScalar part)
  /-- Where the size is in range, all scalars are written when a field is filled. -/
  filled (value : Binary64) : (∃ e, f.words = .error e ∧ fillField f value = throw (.overflow e)) ∨
    ∃ ws, f.words = .ok ws.length ∧ fillField f value = writeField f ws ∧ ∀ i l,
      ws[f.wordOf i l]? = some (fillWord value l.scalar) ∧ f.elem.scalars[f.wordOf i l % f.elem.size]? = some l.scalar
  printed (name : String) (words : List UInt32) : ∃ ls, Program.fieldText name f words
    = name ++ " = " ++ Program.numbersText ls ∧
    ∀ i l, ls[f.wordOf i l]? = words[f.wordOf i l]?.map fun w => Literal.ofBits w l.scalar

/-- The layout has the agreed size and order, in shaders and in what is printed, for every field. -/
theorem FieldInfo.laidOut (f : FieldInfo) : LaidOut f where
  words _ := f.words_ok_iff
  bijective := f.bijective_storageWord
  addressed {m} hoffset hword {env t e} hf {is i} his {chain part p} hp span := by
    have hlen : is.length = f.shape.length := by
      rw [his.length_eq, i.within.length_eq, FieldInfo.extents, List.length_map]
    show Gives m _ (Lowering.index (.static (.field f)) is span >>= fun l => follow span l chain) _
    refine (gives_element hlen span).bind fun ok₁ l hl => ?_
    refine (gives_follow hoffset span hp hl (Nat.zero_add _).le).imp fun ok₂ l' hl' => ?_
    obtain ⟨o, rfl, ho⟩ := hl'
    rw [Nat.zero_add] at ho
    exact ⟨o, rfl, fun hok => pointsTo hf hword i his p (ho.imp fun _ => hok)⟩
  decoded h p i l := by
    rw [wordScalar_eq h l, ← p.scalar_leaf l]
    exact f.getElem?_scalars_wordOf i (p.leaf l)
  filled value := by
    cases hwords : f.words with
    | error e => exact .inl ⟨e, rfl, fillField_of_overflow hwords value⟩
    | ok n =>
      obtain ⟨rfl, -⟩ := f.words_ok_iff.1 hwords
      refine .inr ⟨ArrayKernel.filled f value, ?_, fillField_of_words hwords value, fun i l => ?_⟩
      · rw [ArrayKernel.filled, length_map, length_range]
      · exact ⟨getElem?_filled f value i l, f.getElem?_scalars_wordOf i l⟩
  printed name words := ⟨_, rfl, getElem?_printed f words⟩

def particles : FieldInfo where
  id := 0
  name := "particles"
  shape := [4, 5]
  elem := .struct (.cons "cell" (.vector .i32 .two) (.cons "frame" (.matrix .two .three) .nil))

def particleValues : String → Int
  | "_0" => 3
  | "_1" => 1
  | "_2" => 3
  | "_3" => 5
  | _ => 125

def particleTarget : Target where
  kernel := { name := "move", params := [], ret := none, tasks := [], fields := [particles], textures := [] }
  index := 0
  usage := {}

theorem namedValues_particles (id : StmtId) :
    namedValues particleValues particleTarget {} id = particleValues (valueName id) := by
  have hnone : ({} : Emitter).values[id]? = none := Std.HashMap.getElem?_empty
  simp only [namedValues, operand, run_bind, run_get, hnone]
  rfl

/-- A row of a matrix, at an index known on the device. -/
theorem particles_row : ∃ o b', follow default (.static (.field particles))
      [.index [.stmt 0, .int 2], .member "frame", .index [.stmt 1]] { nextId := 2 }
        = .ok (.place (.global particles [.stmt 0, .int 2] o (.vector .f32 .three))) b'
    ∧ ∃ (i : particles.Index) (p : Portion particles.elem (.vector .f32 .three)), i.coords = [3, 2] ∧ p.start = 5
      ∧ PointsTo 0 particleValues particleTarget {} particles [.stmt 0, .int 2] i p o := by
  have hρ : namedValues particleValues particleTarget {} = fun id => particleValues (valueName id) :=
    funext namedValues_particles
  have hwithin : List.Forall₂ (· < ·) [3, 2] particles.extents := .cons (by decide) (.cons (by decide) .nil)
  have his : List.Forall₂ (fun o k => intValue (namedValues particleValues particleTarget {}) o
      = some ((k : Nat) : Int)) [.stmt 0, .int 2] [3, 2] := by
    rw [hρ]
    exact .cons (by decide) (.cons (by decide) .nil)
  have hp : reach? (namedValues particleValues particleTarget {})
      [.member "frame", .index [.stmt 1]] particles.elem = some ⟨.vector .f32 .three,
        ((Portion.first ..).later ..).trans ((Portion.row ⟨1, by decide⟩).trans (.whole _))⟩ := by
    rw [hρ]
    rfl
  have hrun : follow default (.static (.field particles)) [.index [.stmt 0, .int 2], .member "frame", .index [.stmt 1]]
      { nextId := 2 } = .ok (.place (.global particles [.stmt 0, .int 2] (.stmt 3) (.vector .f32 .three)))
        { nextId := 4, fields := [particles], block := #[.op 2 (.binary .mul (.stmt 1) (.int 3) .i32 .i32),
          .op 3 (.binary .add (.int 2) (.stmt 2) .i32 .i32)] } := by
    rfl
  obtain ⟨l, b', code, hrun', hemits, o, rfl, hpoints⟩ := particles.laidOut.addressed
    (.inr ⟨rfl, by decide⟩) (.inr ⟨rfl, by decide⟩) rfl (i := ⟨_, hwithin⟩) his hp default { nextId := 2 }
  cases hrun'
  refine ⟨_, _, hrun, _, _, rfl, rfl, hpoints ?_⟩
  have hcode : _ = code := hemits.block
  rw [hρ, ← hcode]
  refine List.forall_mem_cons.2 ⟨?_, List.forall_mem_singleton.2 ?_⟩
  · rintro g ⟨⟩ x y ⟨⟩ ⟨⟩
    show particleValues (valueName 2) ≡ particleValues (valueName 1) * 3 [ZMOD 0]
    decide
  · rintro g ⟨⟩ x y ⟨⟩ ⟨⟩
    show particleValues (valueName 3) ≡ 2 + particleValues (valueName 2) [ZMOD 0]
    decide

end ArrayKernel
