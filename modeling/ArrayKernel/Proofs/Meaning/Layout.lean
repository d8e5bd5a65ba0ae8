import ArrayKernel.Proofs.Lowering.Steps
import ArrayKernel.Proofs.Meaning.Code
import ArrayKernel.Proofs.Meaning.Language

/-!
# Where variables are held

A variable is in a slot, in the value of a statement, or nowhere at all, when it is a constant.
`Agrees` relates the variables of a run of the language to the store of a run of the representation.
-/

namespace ArrayKernel.Meaning

open IR Lowering Surface List

variable {id n : StmtId} {x : String}

/-! ## 1. Places of integers -/

inductive Loc where
  | const (v : Int32)
  | slot (id : StmtId)
  | temp (id : StmtId)

namespace Loc

variable {l : Loc} {σ : Store}

def value : Loc → Value
  | const v => .number (.i32 v)
  | slot id => .place (.local id .i32 [] .i32)
  | temp id => .bound (.stmt id) .i32

def read (σ : Store) : Loc → Option Int32
  | const v => some v
  | slot id => σ.slots id
  | temp id => σ.values id

def slot? : Loc → Option StmtId
  | slot id => some id
  | _ => none

def Below (n : StmtId) : Loc → Prop
  | const _ => True
  | slot id | temp id => id < n

theorem Below.mono {m : StmtId} (h : l.Below n) (hn : n ≤ m) : l.Below m := by
  cases l with
  | const v => trivial
  | slot id | temp id => exact Nat.lt_of_lt_of_le h hn

theorem read_same {σ' : Store} (h : l.Below n) (hs : Same n σ σ') : l.read σ' = l.read σ := by
  cases l with
  | const v => rfl
  | slot id => exact (hs id h).2
  | temp id => exact (hs id h).1

theorem below_of_slot? (h : l.Below n) (hid : l.slot? = some id) : id < n := by
  cases l with
  | slot i =>
    cases hid
    exact h
  | const v | temp i => cases hid

theorem read_setSlot (h : l.slot? ≠ some id) {v : Int32} : l.read (σ.setSlot id v) = l.read σ := by
  cases l with
  | const w | temp i => rfl
  | slot i =>
    have hne : i ≠ id := fun heq => h (congrArg some heq)
    simp [read, hne]

end Loc

/-! ## 2. Layouts -/

abbrev Layout := List (String × Loc)

variable {L : Layout} {l : Loc}

namespace Layout

def names (L : Layout) : List String := L.map Prod.fst

theorem names_append {L' : Layout} : names (L ++ L') = names L ++ names L' := map_append

def slots (L : Layout) : List StmtId := L.filterMap fun p => p.2.slot?

theorem slots_cons {p : String × Loc} : slots (p :: L) = p.2.slot?.toList ++ slots L := by
  unfold slots
  rw [filterMap_cons]
  cases p.2.slot? <;> rfl

/-- The scope finds every variable where the layout has it, and no two variables share a slot. -/
structure Fits (L : Layout) (n : StmtId) (scope : Scope) : Prop where
  found : ∀ x l, L.lookup x = some l → scope.get? x = some l.value
  below : ∀ p ∈ L, p.2.Below n
  distinct : L.slots.Nodup

namespace Fits

variable {L : Layout} {n m : StmtId} {scope : Scope}

theorem mono (h : L.Fits n scope) (hn : n ≤ m) : L.Fits m scope :=
  ⟨h.found, fun p hp => (h.below p hp).mono hn, h.distinct⟩

theorem slot_lt (h : L.Fits n scope) (hid : id ∈ L.slots) : id < n := by
  obtain ⟨p, hp, hid⟩ := mem_filterMap.1 hid
  exact Loc.below_of_slot? (h.below p hp) hid

theorem push (h : L.Fits n scope) (x : String) (hl : l.Below n)
    (hnew : ∀ id, l.slot? = some id → id ∉ L.slots) :
    Layout.Fits ((x, l) :: L) n (scope.insert x l.value) where
  found y l' hy := by
    rw [Scope.get?_insert]
    rw [lookup_cons] at hy
    by_cases hxy : x = y
    · subst hxy
      rw [beq_self_eq_true] at hy
      cases hy
      rw [if_pos rfl]
    · have hne : (y == x) = false := by simpa using Ne.symm hxy
      rw [hne] at hy
      rw [if_neg hxy]
      exact h.found y l' hy
  below p hp := by
    rcases mem_cons.1 hp with rfl | hp
    · exact hl
    · exact h.below p hp
  distinct := by
    rw [slots_cons]
    cases hs : l.slot? with
    | none => exact h.distinct
    | some id => exact nodup_cons.2 ⟨hnew id hs, h.distinct⟩

theorem pushSlot (h : L.Fits n scope) (hid : n ≤ id) (hm : id < m) :
    Layout.Fits ((x, .slot id) :: L) m (scope.insert x (Loc.slot id).value) := by
  refine (h.mono (Nat.le_of_lt (Nat.lt_of_le_of_lt hid hm))).push x hm fun i hi hmem => ?_
  cases hi
  exact absurd (h.slot_lt hmem) (Nat.not_lt.2 hid)

end Fits

end Layout

theorem Layout.exists_lookup (h : L.names.contains x) : ∃ l, L.lookup x = some l := by
  induction L with
  | nil => cases h
  | cons p L ih =>
    obtain ⟨y, l⟩ := p
    rw [lookup_cons]
    cases hxy : x == y with
    | true => exact ⟨l, rfl⟩
    | false =>
      refine ih ?_
      simpa [Layout.names, hxy] using h

theorem Layout.mem_of_lookup (h : L.lookup x = some l) : (x, l) ∈ L := by
  induction L with
  | nil => cases h
  | cons p L ih =>
    obtain ⟨y, l'⟩ := p
    rw [lookup_cons] at h
    cases hxy : x == y with
    | true =>
      rw [hxy] at h
      cases h
      rw [eq_of_beq hxy]
      exact mem_cons_self ..
    | false =>
      rw [hxy] at h
      exact mem_cons_of_mem _ (ih h)

def Agrees (L : Layout) (ρ : Env) (σ : Store) : Prop :=
  Forall₂ (fun p q => p.1 = q.1 ∧ p.2.read σ = some q.2) L ρ

namespace Agrees

variable {L : Layout} {ρ : Env} {σ σ' : Store}

theorem same (h : Agrees L ρ σ) (hL : ∀ p ∈ L, p.2.Below n) (hs : Same n σ σ') : Agrees L ρ σ' := by
  induction h with
  | nil => exact .nil
  | @cons p q L ρ hpq _ ih =>
    have hp : p.2.read σ' = p.2.read σ := Loc.read_same (hL p (mem_cons_self ..)) hs
    exact .cons ⟨hpq.1, hp.trans hpq.2⟩ (ih fun p hp => hL p (mem_cons_of_mem _ hp))

theorem lookup (h : Agrees L ρ σ) (hx : L.lookup x = some l) :
    ∃ v, ρ.lookup x = some v ∧ l.read σ = some v := by
  induction h with
  | nil => cases hx
  | @cons p q L ρ hpq _ ih =>
    obtain ⟨y, l'⟩ := p
    obtain ⟨z, v⟩ := q
    obtain ⟨rfl, hv⟩ : y = z ∧ l'.read σ = some v := hpq
    rw [lookup_cons] at hx ⊢
    cases hxy : x == y with
    | true =>
      rw [hxy] at hx
      cases hx
      exact ⟨v, rfl, hv⟩
    | false =>
      rw [hxy] at hx
      exact ih hx

theorem setSlot (h : Agrees L ρ σ) (hid : id ∉ L.slots) (v : Int32) :
    Agrees L ρ (σ.setSlot id v) := by
  induction h with
  | nil => exact .nil
  | @cons p q L ρ hpq _ ih =>
    rw [Layout.slots_cons, mem_append, Option.mem_toList, not_or] at hid
    obtain ⟨hp, hL⟩ := hid
    exact .cons ⟨hpq.1, (Loc.read_setSlot hp).trans hpq.2⟩ (ih hL)

theorem assign (h : Agrees L ρ σ) (hx : L.lookup x = some (.slot id)) (hd : L.slots.Nodup)
    (v : Int32) : Agrees L (Meaning.assign x v ρ) (σ.setSlot id v) := by
  induction h with
  | nil => cases hx
  | @cons p q L ρ hpq hrest ih =>
    obtain ⟨y, l⟩ := p
    obtain ⟨z, w⟩ := q
    obtain ⟨rfl, hw⟩ : y = z ∧ l.read σ = some w := hpq
    rw [lookup_cons] at hx
    rw [Layout.slots_cons] at hd
    obtain ⟨-, hd', hdisjoint⟩ := nodup_append.1 hd
    unfold Meaning.assign
    cases hxy : x == y with
    | true =>
      rw [hxy] at hx
      cases hx
      have hid : id ∉ Layout.slots L := fun hmem => hdisjoint id (by simp [Loc.slot?]) id hmem rfl
      rw [if_pos (eq_of_beq hxy).symm]
      exact .cons ⟨rfl, by simp [Loc.read]⟩ (Agrees.setSlot hrest hid v)
    | false =>
      rw [hxy] at hx
      have hmem : id ∈ Layout.slots L := mem_filterMap.2 ⟨_, Layout.mem_of_lookup hx, rfl⟩
      have hl : l.slot? ≠ some id := fun hl => hdisjoint id (Option.mem_toList.2 hl) id hmem rfl
      rw [if_neg fun hyx => by simp [hyx] at hxy]
      exact .cons ⟨rfl, (Loc.read_setSlot hl).trans hw⟩ (ih hx hd')

theorem drop {ext : Layout} {before : Env} (h : Agrees (ext ++ L) ρ σ)
    (hlen : before.length = L.length) : Agrees L (ρ.drop (ρ.length - before.length)) σ := by
  have hρ : ρ.length = ext.length + L.length := by rw [← h.length_eq, length_append]
  have hn : ρ.length - before.length = ext.length := by omega
  have hdrop := forall₂_drop ext.length h
  rw [drop_left] at hdrop
  rwa [hn]

end Agrees

end ArrayKernel.Meaning
