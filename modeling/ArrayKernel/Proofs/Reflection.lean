import ArrayKernel.Proofs.Scoping
import ArrayKernel.Proofs.Shader.Assembly
import ArrayKernel.Proofs.SpanNesting

/-!
# Reflection undoes emission

Every shader of a kernel tells, when its text is read, what it was put together from: a compute
entry `main`, its workgroup size and its bindings. So no kernel fails to compile because its own
shaders cannot be read.
-/

namespace ArrayKernel.Lowering

open IR Surface Shader Text List

variable {r : Routine} {scope : Scope} {templates : List (String × Value)}
  {settings : CompilerSettings} {k : Kernel} {fields : List FieldInfo} {textures : List TextureInfo}
  {source : String}

/-! ## 1. Hosts -/

def Bindable (fields : List FieldInfo) (textures : List TextureInfo) : Value → Prop
  | .array _ ty => ty.isStruct = false
  | .field f => f ∈ fields
  | .texture t => t ∈ textures
  | v => v.isTransient = false

def listedHost (fields : List FieldInfo) (textures : List TextureInfo) : Host :=
  { field := (· ∈ fields), texture := (· ∈ textures), flat := True, typed := False }

theorem valueOk_listedHost (v : Value) (hr : v.isRecord = false) (h : Bindable fields textures v) :
    ValueOk (listedHost fields textures) .empty v := by
  cases v with
  | record r => cases hr
  | place p | bound o ty | arg i ty => cases h
  | array vs ty => exact ⟨fun _ => h, nofun⟩
  | number l => trivial
  | field f | texture t => exact h
  | function f => trivial

/-- The resources can be numbered by words, and their ids are words. -/
structure FewResources (fields : List FieldInfo) (textures : List TextureInfo) : Prop where
  fieldIds : ∀ f ∈ fields, f.id < 2 ^ 32
  textureIds : ∀ t ∈ textures, t.id < 2 ^ 32
  few : fields.length + 3 * textures.length + 3 ≤ 2 ^ 32

/-! ## 2. Kernels -/

theorem discipline_implies_writable {H : Host} {noted : List FieldInfo} (hflat : H.flat)
    {past : Defs} {ret : Option Ty} :
    (discipline H noted past ret).Implies (writable H.toResources) where
  op _ ho := ⟨ho.sourced, ho.flat hflat⟩
  loop _ hl := hl.2.2
  cond _ _ := trivial

theorem writable_lower (hg : HostGives (Bindable fields textures) scope templates)
    (h : lower r scope templates settings = .ok k) :
    ∀ t ∈ k.tasks, (writable ⟨(· ∈ fields), (· ∈ textures)⟩).task t := by
  obtain ⟨htasks, -⟩ := hg.discipline valueOk_listedHost h fun _ _ => trivial
  exact Check.tasks_mem (Check.Implies.tasks (fun past => discipline_implies_writable trivial) htasks)

theorem name_lower (h : lower r scope templates settings = .ok k) :
    k.name = (r.name.map Name.text).getD "kernel" := by
  unfold lower at h
  split at h
  · rename_i k0 b' hrun
    cases h
    obtain ⟨_, _, _, k1⟩ := bind_ok hrun
    obtain ⟨_, _, _, k2⟩ := bind_ok k1
    obtain ⟨_, _, _, k3⟩ := bind_ok k2
    cases k3
    rfl
  · cases h

theorem newline_not_mem_name (hr : Routine.parse kernelFile source = .ok r)
    (h : lower r scope templates settings = .ok k) : '\n' ∉ k.name.toList := by
  rw [name_lower h]
  cases hname : r.name with
  | none => exact (by decide : '\n' ∉ "kernel".toList)
  | some n => exact fun hc => absurd (spelled_name hr n hname _ hc) (by decide)

/-! ## 3. Shaders -/

def reflectionOf (s : TaskShader) : Reflection :=
  { stage := .compute, entry := "main", workgroupSize := some (s.workgroupSize, 1, 1), bindings := s.bindings }

theorem reflect_text (hg : HostGives (Bindable fields textures) scope templates)
    (hfew : FewResources fields textures) (hsize : settings.workgroupSize < 2 ^ 32)
    (hr : Routine.parse kernelFile source = .ok r) (h : lower r scope templates settings = .ok k) :
    ∀ s ∈ ofKernel k settings, reflect s.text = .ok (reflectionOf s) := by
  intro s hs
  obtain ⟨index, hi, rfl⟩ := mem_mapIdx.1 hs
  obtain ⟨t, parallel, e, rfl, he, htext, hbindings, hwidth⟩ :=
    ofTask_eq k settings index (writable_lower hg h _ (getElem_mem hi))
  have hreadable := readable_numbered he.bindings hfew.fieldIds hfew.textureIds hfew.few
  obtain ⟨intro, mid, body, hintro, hmid, hbody, hstrip⟩ :=
    stripComments_assemble (newline_not_mem_name hr h) he hreadable parallel
  have hword : (ofTask t.kernel settings index t.kernel.tasks[index]).workgroupSize < 2 ^ 32 := by
    rw [hwidth]
    split
    · exact hsize
    · decide
  rw [← htext] at hstrip
  rw [reflectionOf, hbindings]
  exact reflect_eq hstrip he.bindings hreadable hintro hmid hbody hword

theorem located_of_lower {err : CompileError} (h : lower r scope templates settings = .error err) :
    ∃ cause span, err = .located cause span := by
  unfold lower at h
  split at h
  · cases h
  · cases h
    exact ⟨_, _, rfl⟩

theorem mapM_ofShader {ss : List TaskShader} (h : ∀ s ∈ ss, reflect s.text = .ok (reflectionOf s)) :
    ∃ ts, ss.mapM CompiledTask.ofShader = .ok ts := by
  induction ss with
  | nil => exact ⟨[], rfl⟩
  | cons s ss ih =>
    rw [forall_mem_cons] at h
    obtain ⟨ts, hts⟩ := ih h.2
    rw [mapM_cons, CompiledTask.ofShader, h.1, hts]
    exact ⟨_, rfl⟩

/-- Reflection recovers what a shader was put together from, and so compiling never fails there. -/
theorem reflect_ofKernel (source : String) (settings : CompilerSettings)
    (hg : HostGives (Bindable fields textures) scope templates)
    (hfew : FewResources fields textures) (hsize : settings.workgroupSize < 2 ^ 32) :
    (∀ r k, Routine.parse kernelFile source = .ok r → lower r scope templates settings = .ok k →
      ∀ s ∈ ofKernel k settings, reflect s.text
        = .ok { stage := .compute, entry := "main", workgroupSize := some (s.workgroupSize,
          1, 1), bindings := s.bindings })
    ∧ ∀ e, compile source scope templates settings ≠ .error (.reflection e) := by
  refine ⟨fun r k hr h => reflect_text hg hfew hsize hr h, fun e he => ?_⟩
  unfold compile at he
  cases hr : Routine.parse kernelFile source with
  | error cs =>
    rw [hr] at he
    cases he
  | ok r =>
    rw [hr] at he
    dsimp only at he
    cases h : lower r scope templates settings with
    | error err =>
      rw [h] at he
      obtain ⟨cause, span, rfl⟩ := located_of_lower h
      cases he
    | ok k =>
      rw [h] at he
      obtain ⟨ts, hts⟩ := mapM_ofShader (reflect_text hg hfew hsize hr h)
      change ((ofKernel k settings).mapM CompiledTask.ofShader >>= _) = _ at he
      rw [hts] at he
      cases he

/-- A field whose name looks like the start of a declaration and of a comment. -/
def oddField : FieldInfo := { id := 7, name := "@group(9) /* cells", shape := [64], elem := .i32 }

def oddImage : TextureInfo :=
  { id := 3, name := "image", dims := [16, 16], format := .rgba8unorm, storage := true }

def oddScope : Scope where
  table := [("cells", .field oddField), ("image", .texture oddImage)]

theorem oddScope_given : HostGives (Bindable [oddField] [oddImage]) oddScope [] where
  table p hp := by
    simp only [oddScope, mem_cons, not_mem_nil, or_false] at hp
    rcases hp with rfl | rfl
    · exact mem_singleton.2 rfl
    · exact mem_singleton.2 rfl
  receiver := nofun
  templates := nofun

def oddSource : String :=
  "function vertex(n: i32) \x7b let total = 0; for (const [i, j] of ndrange(8, 8)) \x7b total += cells[i] + n; "
    ++ "textureStore(image, [i, j], [random(), 0, 0, 1]); \x7d return total \x7d"

/-- The three shaders of a kernel whose names would be taken for declarations if they were written
as they are. -/
theorem reflect_oddShaders :
    ∃ r k, Routine.parse kernelFile oddSource = .ok r ∧ lower r oddScope [] {} = .ok k
      ∧ (ofKernel k {}).length = 3
      ∧ (∀ s ∈ ofKernel k {}, reflect s.text
        = .ok { stage := .compute, entry := "main", workgroupSize := some (s.workgroupSize,
          1, 1), bindings := s.bindings })
      ∧ ∀ e, compile oddSource oddScope [] {} ≠ .error (.reflection e) := by
  obtain ⟨r, k, hr, hk, he⟩ := exists_of_kernelHas (fun k => k.tasks.length = 3) oddSource oddScope (by decide +kernel)
  have hlength : (ofKernel k {}).length = 3 := List.length_mapIdx.trans (of_decide_eq_true he)
  obtain ⟨hread, hcompile⟩ :=
    reflect_ofKernel oddSource {} oddScope_given ⟨by decide, by decide, by decide⟩ (by decide)
  exact ⟨r, k, hr, hk, hlength, hread r k hr hk, hcompile⟩

end ArrayKernel.Lowering
