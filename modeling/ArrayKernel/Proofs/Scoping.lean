import ArrayKernel.Compile
import ArrayKernel.Proofs.Lowering.Given

/-!
# Definitions come before uses

The operands that select an element of a field are kept in the places of a record, and a record that
a function hands through is bound without a copy. So it may be read in a later task than the one
that its indices are from. Nothing else can go wrong (`definedBeforeUse_iff`).
-/

namespace ArrayKernel.IR

/-! ## 1. Well-scoped kernels -/

/-- Every reference is to the task itself, and slots may also be those of the tasks before. -/
def scoping (past : Defs) : Check where
  op here o := o.Scoped here here (past ++ here)
  loop here first last _ := Visible here first ∧ Visible here last
  cond here o := Visible here o

/-- The same, except that the index of an element may be a value of an earlier task. -/
def looseScoping (past : Defs) : Check where
  op here o := o.Scoped here (past ++ here) (past ++ here)
  loop here first last _ := Visible here first ∧ Visible here last
  cond here o := Visible here o

/-- Every index of an element is a value of the task itself. -/
def elementScoping : Check where
  op here o := ∀ x ∈ o.elementIndices, Visible here x
  loop _ _ _ _ := True
  cond _ _ := True

namespace Kernel

/-- All ids of statements and of parallel loops are distinct, and every reference is to what came
before. -/
structure DefinedBeforeUse (k : Kernel) : Prop where
  distinct : (k.tasks.flatMap Task.ids).Nodup
  references : Check.tasks scoping [] k.tasks

def ElementsInTask (k : Kernel) : Prop := Check.tasks (fun _ => elementScoping) [] k.tasks

instance (k : Kernel) : Decidable k.DefinedBeforeUse :=
  have (past d : Defs) (o : Op) : Decidable ((scoping past).op d o) :=
    inferInstanceAs (Decidable (o.Scoped d d (past ++ d)))
  have (past d : Defs) (first last : Operand) (hint : String) : Decidable ((scoping past).loop d first last hint) :=
    inferInstanceAs (Decidable (Visible d first ∧ Visible d last))
  have (past d : Defs) (o : Operand) : Decidable ((scoping past).cond d o) := inferInstanceAs (Decidable (Visible d o))
  decidable_of_iff ((k.tasks.flatMap Task.ids).Nodup ∧ Check.tasks scoping [] k.tasks)
    ⟨fun h => ⟨h.1, h.2⟩, fun h => ⟨h.distinct, h.references⟩⟩

instance (k : Kernel) : Decidable k.ElementsInTask :=
  have (d : Defs) (o : Op) : Decidable (elementScoping.op d o) :=
    inferInstanceAs (Decidable (∀ x ∈ o.elementIndices, Visible d x))
  have (d : Defs) (first last : Operand) (hint : String) : Decidable (elementScoping.loop d first last hint) :=
    .isTrue trivial
  have (d : Defs) (o : Operand) : Decidable (elementScoping.cond d o) := .isTrue trivial
  inferInstanceAs (Decidable (Check.tasks _ _ _))

end Kernel

theorem scoping_implies_elementScoping (past : Defs) : (scoping past).Implies elementScoping where
  op hd ho x hx := (ho.elementIndices x hx).mono hd
  loop _ _ := trivial
  cond _ _ := trivial

/-- The loose references and the indices of elements together are all references. -/
theorem both_implies_scoping (past : Defs) :
    ((looseScoping past).both elementScoping).Implies (scoping past) where
  op hd ho := by
    have h := ho.1.mono hd (Defs.append_mono (List.Subset.refl past) hd) (Defs.append_mono (List.Subset.refl past) hd)
    exact { h with elementIndices := fun x hx => (ho.2 x hx).mono hd }
  loop hd hl := ⟨hl.1.1.mono hd, hl.1.2.mono hd⟩
  cond hd hc := hc.1.mono hd

end ArrayKernel.IR

namespace ArrayKernel.Lowering

open IR Surface

/-! ## 2. Lowered kernels -/

theorem discipline_implies_looseScoping {H : Host} {fields : List FieldInfo} {ret : Option Ty}
    (past : Defs) : (discipline H fields past ret).Implies (looseScoping past) where
  op hd ho := (ho.mono (envOf_mono_here hd)).refs
  loop hd hl := ⟨hl.1.visible.mono hd, hl.2.1.visible.mono hd⟩
  cond hd hc := by
    obtain ⟨s, hs⟩ := hc
    exact hs.visible.mono hd

/-- Whatever a host gives, the ids of a kernel are distinct, its references are in order up to the
indices of elements, and they are in order altogether exactly if those indices are. -/
theorem definedBeforeUse_iff {r : Routine} {scope : Scope} {templates : List (String × Value)}
    {settings : CompilerSettings} {k : Kernel}
    (hg : HostGives (fun v => v.isTransient = false) scope templates)
    (h : lower r scope templates settings = .ok k) :
    (k.tasks.flatMap Task.ids).Nodup ∧ Check.tasks looseScoping [] k.tasks
      ∧ (k.DefinedBeforeUse ↔ k.ElementsInTask) := by
  obtain ⟨htasks, hnodup⟩ := hg.discipline valueOk_anyHost h fun _ _ => trivial
  have hloose : Check.tasks looseScoping [] k.tasks := Check.Implies.tasks discipline_implies_looseScoping htasks
  refine ⟨hnodup, hloose, fun hk => ?_, fun hk => ⟨hnodup, ?_⟩⟩
  · exact Check.Implies.tasks scoping_implies_elementScoping hk.references
  · exact Check.Implies.tasks both_implies_scoping (Check.both_tasks hloose hk)

/-! ## 3. A record that is bound without a copy -/

def kernelHas (p : Kernel → Bool) (source : String) (scope : Scope) : Bool :=
  match Routine.parse kernelFile source with
  | .ok r =>
    match lower r scope [] {} with
    | .ok k => p k
    | .error _ => false
  | .error _ => false

theorem exists_of_kernelHas (p : Kernel → Bool) (source : String) (scope : Scope)
    (h : kernelHas p source scope) :
    ∃ r k, Routine.parse kernelFile source = .ok r ∧ lower r scope [] {} = .ok k ∧ p k := by
  unfold kernelHas at h
  split at h
  · split at h
    · exact ⟨_, _, ‹_›, ‹_›, h⟩
    · cases h
  · cases h

def partsScope : Scope where
  table :=
    [("out", .field { id := 0, name := "out", shape := [4], elem := .f32 }),
     ("parts", .field { id := 1, name := "parts", shape := [8],
                        elem := .struct (.cons "mass" .f32 (.cons "age" .i32 .nil)) })]

theorem partsScope_given : HostGives (fun v => v.isTransient = false) partsScope [] where
  table p hp := by
    simp only [partsScope, List.mem_cons, List.not_mem_nil, or_false] at hp
    rcases hp with rfl | rfl <;> rfl
  receiver := nofun
  templates := nofun

def copiedSource : String :=
  "(n: i32) => \x7b const q = \x7b s: parts[n] \x7d; for (const j of range(4)) \x7b out[j] = q.s.mass \x7d \x7d"

def sharedSource : String :=
  "(n: i32) => \x7b const q = ((r) => r)(\x7b s: parts[n] \x7d); for (const j of range(4)) \x7b out[j] = q.s.mass \x7d \x7d"

/-- A copied record can be read in the next task. -/
theorem definedBeforeUse_copiedRecord :
    ∃ r k, Routine.parse kernelFile copiedSource = .ok r ∧ lower r partsScope [] {} = .ok k ∧ k.DefinedBeforeUse := by
  obtain ⟨r, k, hr, hk, he⟩ := exists_of_kernelHas (fun k => k.ElementsInTask) copiedSource
    partsScope (by decide +kernel)
  exact ⟨r, k, hr, hk, (definedBeforeUse_iff partsScope_given hk).2.2.2 (of_decide_eq_true he)⟩

/-- A record that a function hands through is not copied, and its element is selected by a value of
another task. -/
theorem not_definedBeforeUse_sharedRecord :
    ∃ r k, Routine.parse kernelFile sharedSource = .ok r ∧ lower r partsScope [] {} = .ok k ∧ ¬ k.DefinedBeforeUse := by
  obtain ⟨r, k, hr, hk, he⟩ := exists_of_kernelHas (fun k => ¬ k.DefinedBeforeUse) sharedSource
    partsScope (by decide +kernel)
  exact ⟨r, k, hr, hk, of_decide_eq_true he⟩

end ArrayKernel.Lowering
