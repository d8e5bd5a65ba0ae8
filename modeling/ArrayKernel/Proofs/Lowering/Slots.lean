import ArrayKernel.Lowering.Kernel
import ArrayKernel.Proofs.Scope.Bindings

/-!
# What values hold

A value may hold slots, which can be written to, and routines, which can be called. A function that
is expanded sees what the host gave, the functions of its caller, its receiver and its arguments.
-/

namespace ArrayKernel

open IR List Surface

/-! ## 1. Slots and routines -/

inductive Held where
  | slot (i : StmtId)
  | routine (r : Routine)

def Held.slot? : Held → Option StmtId
  | slot i => some i
  | routine _ => none

def Place.held : Place → List Held
  | .local slot .. => [.slot slot]
  | .global .. => []

mutual

def Value.held : Value → List Held
  | .place p => p.held
  | .record r => r.held
  | .function f => [.routine f.routine]
  | _ => []

def Record.held : Record → List Held
  | .nil => []
  | .cons _ v rest => v.held ++ rest.held

end

namespace Lowering

variable {name : String} {v : Value} {l : Lowered} {t : List (String × Value)} {p : String × Value}

mutual

def Lowered.held : Lowered → List Held
  | .place p => p.held
  | .static v => v.held
  | .record es => es.held
  | _ => []

def Entries.held : Entries → List Held
  | .nil => []
  | .cons _ l rest => l.held ++ rest.held

end

abbrev Among (S : Held → Prop) (hs : List Held) : Prop := ∀ h ∈ hs, S h

variable {S : Held → Prop}

theorem among_nil : Among S [] := forall_mem_nil _

theorem among_of_eq_nil {hs : List Held} (h : hs = []) : Among S hs := h ▸ among_nil

theorem held_get? {r : Record} (h : Among S r.held) (hv : r.get? name = some v) :
    Among S v.held := by
  induction r using Record.rec (motive_1 := fun _ => True) with
  | nil => cases hv
  | cons k w rest _ ih =>
    obtain ⟨hw, hrest⟩ := forall_mem_append.1 h
    unfold Record.get? at hv
    split at hv
    · cases hv
      exact hw
    · exact ih hrest hv
  | _ => trivial

theorem held_entry {es : Entries} (h : Among S es.held) (hl : es.get? name = some l) :
    Among S l.held := by
  induction es using Entries.rec (motive_1 := fun _ => True) with
  | nil => cases hl
  | cons k w rest _ ih =>
    obtain ⟨hw, hrest⟩ := forall_mem_append.1 h
    unfold Entries.get? at hl
    split at hl
    · cases hl
      exact hw
    · exact ih hrest hl
  | _ => trivial

theorem held_static? (h : Among S l.held) (hv : l.static? = some v) : Among S v.held := by
  unfold Lowered.static? at hv
  split at hv <;> cases hv
  · exact h
  · exact among_nil

theorem held_recordOf {vs : List (String × Value)} (h : ∀ p ∈ vs, Among S p.2.held) :
    Among S (Record.ofList vs).held := by
  induction vs with
  | nil => exact forall_mem_nil _
  | cons p vs ih =>
    obtain ⟨hp, hvs⟩ := forall_mem_cons.1 h
    exact forall_mem_append.2 ⟨hp, ih hvs⟩

theorem held_entriesOf {ls : List (String × Lowered)} (h : ∀ p ∈ ls, Among S p.2.held) :
    Among S (Entries.ofList ls).held := by
  induction ls with
  | nil => exact forall_mem_nil _
  | cons p ls ih =>
    obtain ⟨hp, hls⟩ := forall_mem_cons.1 h
    exact forall_mem_append.2 ⟨hp, ih hls⟩

/-! ## 2. Scopes -/

theorem mem_foldl_insertInto {fs : List (String × Value)}
    (h : p ∈ fs.foldl (fun t (k, v) => Scope.insertInto k v t) t) : p ∈ fs ∨ p ∈ t := by
  induction fs generalizing t with
  | nil => exact .inr h
  | cons f fs ih =>
    rcases ih h with h | h
    · exact .inl (mem_cons_of_mem _ h)
    · rcases Scope.mem_insertInto h with rfl | h
      · exact .inl (mem_cons_self ..)
      · exact .inr h

structure ScopeAll (Q : Value → Prop) (s : Scope) : Prop where
  table : ∀ p ∈ s.table, Q p.2
  receiver : ∀ v, s.receiver = some v → Q v

namespace ScopeAll

variable {Q : Value → Prop} {s : Scope} {path : List String}

theorem insert (h : ScopeAll Q s) (hv : Q v) (name : String) : ScopeAll Q (s.insert name v) where
  table p hp := by
    rcases Scope.mem_insertInto hp with rfl | hp
    · exact hv
    · exact h.table p hp
  receiver := h.receiver

theorem get? (h : ScopeAll Q s) (hv : s.get? name = some v) : Q v := by
  obtain ⟨p, hp, rfl⟩ := Option.map_eq_some_iff.1 hv
  exact h.table p (mem_of_find?_eq_some hp)

theorem follow (hmember : ∀ {r : Record} {name : String} {v : Value}, Q (.record r) →
    r.get? name = some v → Q v) {w : Value} (hv : Q v) (h : Scope.follow v path = some w) :
    Q w := by
  induction path generalizing v with
  | nil =>
    obtain rfl := Option.some.inj h
    exact hv
  | cons name path ih =>
    cases v with
    | record r =>
      simp only [Scope.follow, Option.bind_eq_some_iff] at h
      obtain ⟨u, hu, h⟩ := h
      exact ih (hmember hv hu) h
    | _ => simp [Scope.follow] at h

theorem resolve? (h : ScopeAll Q s)
    (hmember : ∀ {r : Record} {name : String} {v : Value}, Q (.record r) →
      r.get? name = some v → Q v) (hv : s.resolve? path = some v) : Q v := by
  cases path with
  | nil => simp [Scope.resolve?] at hv
  | cons head rest =>
    simp only [Scope.resolve?, Option.bind_eq_some_iff] at hv
    obtain ⟨u, hu, hv⟩ := hv
    split at hu
    · exact follow hmember (h.receiver u hu) hv
    · exact follow hmember (h.get? hu) hv

theorem calleeScope {globals caller : Scope} {receiver : Option Value}
    (hfunction : ∀ p ∈ caller.table, ∀ f, p.2 = .function f → Q p.2)
    (hg : ∀ p ∈ globals.table, Q p.2) (hr : ∀ v, receiver = some v → Q v) :
    ScopeAll Q (calleeScope globals caller receiver) := by
  refine ⟨fun p hp => ?_, hr⟩
  rcases mem_foldl_insertInto hp with hp | hp
  · obtain ⟨hp, hf⟩ := mem_filter.1 hp
    obtain ⟨k, v⟩ := p
    cases v with
    | function f => exact hfunction _ hp f rfl
    | _ => cases hf
  · exact hg p hp

end ScopeAll

end Lowering

end ArrayKernel
