import ArrayKernel.Proofs.Scoping

/-!
# Lowered kernels are well typed

Every statement of a lowered kernel is well typed when operands have the types of what they name
(`wellTyped_lower`). The constant vectors and matrices of the host have to be as long as their
types say.
-/

namespace ArrayKernel.IR

open List Stmt Option

/-! ## 1. Checks of all statements at once -/

namespace Stmt

def def? : Stmt → Option (StmtId × Def)
  | op i o => some (i, .op o)
  | rangeFor i _ _ _ _ => some (i, .index)
  | _ => none

def allDefs (ss : List Stmt) : Defs := (flattenAll ss).filterMap def?

theorem allDefs_cons {s : Stmt} {ss : List Stmt} :
    allDefs (s :: ss) = (flatten s).filterMap def? ++ allDefs ss := by
  simp only [allDefs, flattenAll, filterMap_append]

theorem defs_subset (s : Stmt) : s.defs ⊆ (flatten s).filterMap def? := by
  cases s with
  | op i o => exact .refl _
  | _ => exact nil_subset _

theorem defsOf_subset {ss : List Stmt} : defsOf ss ⊆ allDefs ss := by
  induction ss with
  | nil => exact .refl _
  | cons s ss ih =>
    rw [defsOf_cons, allDefs_cons]
    exact Defs.append_mono s.defs_subset ih

end Stmt

def Task.defs (t : Task) : Defs :=
  (t.loop.map fun l => (l.index, Def.index)).toList ++ t.statements.filterMap def?

def Kernel.defs (k : Kernel) : Defs := k.tasks.flatMap Task.defs

theorem Task.outer_subset {t : Task} : t.outer ⊆ t.defs := by
  obtain ⟨loop, body⟩ := t
  cases loop with
  | none => exact defsOf_subset
  | some l => exact nil_subset _

namespace Check

/-- What the check says about a statement by itself, without the statements inside it. -/
def holdsAt (c : Check) (d : Defs) : Stmt → Prop
  | .op _ o => c.op d o
  | .rangeFor _ first last _ hint => c.loop d first last hint
  | .while_ _ _ cond _ => c.cond d cond
  | .ifElse _ cond _ _ => c.cond d cond

/-- One check gives another in the definitions `D`, of which it may have seen only some. -/
structure Gives (c c' : Check) (D : Defs) : Prop where
  op {d : Defs} {o : Op} : d ⊆ D → c.op d o → c'.op D o
  loop {d : Defs} {first last : Operand} {hint : String} :
    d ⊆ D → c.loop d first last hint → c'.loop D first last hint
  cond {d : Defs} {o : Operand} : d ⊆ D → c.cond d o → c'.cond D o

section Gives

variable {c c' : Check} {D : Defs}

mutual

theorem Gives.stmt (h : c.Gives c' D) :
    {d : Defs} → (s : Stmt) → d ⊆ D → (flatten s).filterMap def? ⊆ D →
    c.stmt d s → ∀ t ∈ flatten s, c'.holdsAt D t
  | d, .op i o, hd, _, hs => by
    simp only [Stmt.flatten, mem_singleton, forall_eq]
    exact h.op hd hs
  | d, .rangeFor i first last body hint, hd, hD, hs => by
    obtain ⟨hi, hbody⟩ := cons_subset.1 hD
    simp only [Stmt.flatten, forall_mem_cons]
    have hin : d ++ [(i, Def.index)] ⊆ D := append_subset.2 ⟨hd, cons_subset.2 ⟨hi, nil_subset _⟩⟩
    exact ⟨h.loop hd hs.1, h.block body hin hbody hs.2⟩
  | d, .while_ i condBody cond body, hd, hD, hs => by
    simp only [Stmt.flatten, filterMap_cons, Stmt.def?, filterMap_append] at hD
    obtain ⟨hcond, hbody⟩ := append_subset.1 hD
    simp only [Stmt.flatten, forall_mem_cons, forall_mem_append]
    have hin : d ++ defsOf condBody ⊆ D := append_subset.2 ⟨hd, List.Subset.trans defsOf_subset hcond⟩
    exact ⟨h.cond hin hs.2.1, h.block condBody hd hcond hs.1, h.block body hd hbody hs.2.2⟩
  | d, .ifElse i cond yes no, hd, hD, hs => by
    simp only [Stmt.flatten, filterMap_cons, filterMap_append] at hD
    obtain ⟨hyes, hno⟩ := append_subset.1 hD
    simp only [Stmt.flatten, forall_mem_cons, forall_mem_append]
    exact ⟨h.cond hd hs.1, h.block yes hd hyes hs.2.1, h.block no hd hno hs.2.2⟩

theorem Gives.block (h : c.Gives c' D) : {d : Defs} → (ss : List Stmt) → d ⊆ D → allDefs ss ⊆ D →
    c.block d ss → ∀ t ∈ flattenAll ss, c'.holdsAt D t
  | d, [], _, _, _ => nofun
  | d, s :: ss, hd, hD, hs => by
    rw [allDefs_cons] at hD
    obtain ⟨hs1, hss⟩ := append_subset.1 hD
    simp only [flattenAll, forall_mem_append]
    exact ⟨h.stmt s hd hs1 hs.1, h.block ss (append_subset.2 ⟨hd, List.Subset.trans (defs_subset s) hs1⟩) hss hs.2⟩

end

theorem Gives.task (h : c.Gives c' D) {t : Task} (hD : t.defs ⊆ D) (ht : c.task t) :
    (∀ s ∈ t.statements, c'.holdsAt D s) ∧ ∀ l ∈ t.loop, c'.loop D l.first l.last l.hint := by
  obtain ⟨loop, body⟩ := t
  cases loop with
  | none => exact ⟨h.block body (nil_subset _) hD ht, nofun⟩
  | some l =>
    obtain ⟨hi, hrest⟩ := append_subset.1 hD
    simp only [Task.statements, filterMap_append] at hrest
    obtain ⟨hpro, hbody⟩ := append_subset.1 hrest
    have hdefs := List.Subset.trans defsOf_subset hpro
    have hin : defsOf l.prologue ++ [(l.index, Def.index)] ⊆ D :=
      append_subset.2 ⟨hdefs, hi⟩
    simp only [Task.statements, forall_mem_append]
    refine ⟨⟨h.block _ (nil_subset _) hpro ht.1, h.block body hin hbody ht.2.2⟩, fun m hm => ?_⟩
    obtain rfl := Option.some.inj hm
    exact h.loop hdefs ht.2.1

end Gives

/-- What a check of the tasks of a kernel says about each of its statements. -/
theorem Gives.tasks {c : Defs → Check} {c' : Check} {D : Defs}
    (h : ∀ past, past ⊆ D → (c past).Gives c' D) {past : Defs} {ts : List Task} (hp : past ⊆ D)
    (hD : ∀ t ∈ ts, t.defs ⊆ D) (ht : Check.tasks c past ts) :
    ∀ t ∈ ts, (∀ s ∈ t.statements, c'.holdsAt D s) ∧ ∀ l ∈ t.loop, c'.loop D l.first l.last l.hint := by
  induction ts generalizing past with
  | nil => nofun
  | cons t ts ih =>
    rw [forall_mem_cons] at hD ⊢
    refine ⟨(h past hp).task hD.1 ht.1, ih (append_subset.2 ⟨hp, ?_⟩) hD.2 ht.2⟩
    exact List.Subset.trans t.outer_subset hD.1

end Check

/-! ## 2. Well-typed kernels -/

/-- Simple statements are well typed and no value is a structure, the result is of the type of the
kernel's result, bounds are integers, and conditions are scalars. -/
def typing (r : Resources) (ret : Option Ty) : Check where
  op d o := o.Typed r d ∧ (∀ ty ∈ o.types, ty.isStruct = false) ∧ ∀ v ty, o = .ret v ty → ret = some ty
  loop d first last _ := HasTy d first .i32 ∧ HasTy d last .i32
  cond d o := ∃ s, HasTy d o (.scalar s)

/-- Every statement of a kernel is well typed when each operand has the type of what it names, and
it names one thing only. -/
structure Kernel.WellTyped (r : Resources) (k : Kernel) : Prop where
  distinct : (k.tasks.flatMap Task.ids).Nodup
  statements : ∀ s ∈ k.statements, (typing r k.ret).holdsAt k.defs s
  loops : ∀ t ∈ k.tasks, ∀ l ∈ t.loop, HasTy k.defs l.first .i32 ∧ HasTy k.defs l.last .i32

end ArrayKernel.IR

namespace ArrayKernel.Lowering

open IR Surface

theorem discipline_gives_typing {r : Resources} {fields : List FieldInfo} {past D : Defs}
    {ret : Option Ty} (hp : past ⊆ D) :
    (discipline (typedHost r) fields past ret).Gives (typing r ret) D where
  op hd ho := ⟨(ho.typed trivial).mono (List.append_subset.2 ⟨hp, hd⟩), ho.flat trivial, ho.ret⟩
  loop hd hl := ⟨(hl.1.typed trivial).mono hd, (hl.2.1.typed trivial).mono hd⟩
  cond hd hc := by
    obtain ⟨s, hs⟩ := hc
    exact ⟨s, (hs.typed trivial).mono hd⟩

/-- A kernel that is lowered with well-formed values is well typed. -/
theorem wellTyped_lower {rs : Resources} {r : Routine} {scope : Scope}
    {templates : List (String × Value)} {settings : CompilerSettings} {k : Kernel}
    (hg : HostGives (WellFormed rs) scope templates)
    (h : lower r scope templates settings = .ok k) : k.WellTyped rs := by
  obtain ⟨htasks, hnodup⟩ := hg.discipline valueOk_typedHost h fun _ _ => trivial
  have hdefs : ∀ t ∈ k.tasks, t.defs ⊆ k.defs := fun t ht x hx => List.mem_flatMap.2 ⟨t, ht, hx⟩
  have hgives : ∀ past, past ⊆ k.defs → (discipline (typedHost rs) k.fields past k.ret).Gives
      (typing rs k.ret) k.defs :=
    fun _ => discipline_gives_typing
  have hall := Check.Gives.tasks hgives (List.nil_subset _) hdefs htasks
  refine ⟨hnodup, fun s hs => ?_, fun t ht => (hall t ht).2⟩
  obtain ⟨t, ht, hs⟩ := List.mem_flatMap.1 hs
  exact (hall t ht).1 s hs

/-! ## 3. A kernel with fields, matrices and a result -/

def swirlManifest : Manifest where
  constants := [("turn", .array [.array [.integer 0, .integer 1], .array [.integer (-1), .integer 0]])]
  fields := [("parts", { shape := [8], elem := none, members := ["vel: vec2f", "age: i32"], init := none })]

def swirlSource : String :=
  "(n: i32) => \x7b
    let total = 0;
    for (const i of range(8)) \x7b
      parts[i].vel = parts[i].vel + turn.matmul(turn[0]) * n;
      total += parts[i].age;
    \x7d
    return n > 2 ? total : turn[0][1]
  \x7d"

theorem wellTyped_swirl :
    ∃ scope s r k, swirlManifest.build Registry.counting {} = .ok (scope, s)
      ∧ Routine.parse kernelFile swirlSource = .ok r ∧ lower r scope [] {} = .ok k
      ∧ k.WellTyped (resourcesOf scope) := by
  have hrun : ((swirlManifest.build Registry.counting {}).toOption.any fun x =>
      kernelHas (fun _ => true) swirlSource x.1) = true := by decide +kernel
  cases hbuild : swirlManifest.build Registry.counting {} with
  | error err =>
    rw [hbuild] at hrun
    cases hrun
  | ok x =>
    rw [hbuild] at hrun
    obtain ⟨r, k, hr, hk, -⟩ := exists_of_kernelHas _ _ _ hrun
    exact ⟨x.1, x.2, r, k, rfl, hr, hk, wellTyped_lower (given_build hbuild) hk⟩

end ArrayKernel.Lowering
