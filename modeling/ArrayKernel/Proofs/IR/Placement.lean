import Mathlib.Data.Set.BooleanAlgebra
import Mathlib.Order.CompletePartialOrder
import Mathlib.Order.Interval.Set.Basic
import ArrayKernel.Proofs.IR.Sharing

/-!
# The words of shared slots

A slot is shared exactly if one task makes it and another goes to it. Shared slots are sorted by
their ids and take the words of the buffer without a gap (`Tiles`).
-/

namespace ArrayKernel.IR

attribute [local instance (high)] Zero.ofOfNat0

variable {s : Stmt} {t : Task} {slot : StmtId} {k : Kernel} {high low : Nat} {xs : List SharedSlot}

/-! ## 1. Statements inside statements -/

/-- The statement stands in the block, or in a block inside one of its statements. -/
inductive Occurs (s : Stmt) : List Stmt → Prop where
  | here {ss : List Stmt} : Occurs s (s :: ss)
  | later {x : Stmt} {ss : List Stmt} : Occurs s ss → Occurs s (x :: ss)
  | inFor {i : StmtId} {first last : Operand} {body ss : List Stmt} {hint : String} :
    Occurs s body → Occurs s (.rangeFor i first last body hint :: ss)
  | inTest {i : StmtId} {condBody body ss : List Stmt} {cond : Operand} :
    Occurs s condBody → Occurs s (.while_ i condBody cond body :: ss)
  | inWhile {i : StmtId} {condBody body ss : List Stmt} {cond : Operand} :
    Occurs s body → Occurs s (.while_ i condBody cond body :: ss)
  | inThen {i : StmtId} {cond : Operand} {yes no ss : List Stmt} : Occurs s yes → Occurs s (.ifElse i cond yes no :: ss)
  | inElse {i : StmtId} {cond : Operand} {yes no ss : List Stmt} : Occurs s no → Occurs s (.ifElse i cond yes no :: ss)

theorem Occurs.mem_flattenAll {ss : List Stmt} (h : Occurs s ss) : s ∈ Stmt.flattenAll ss := by
  induction h with
  | here =>
    cases s <;> exact List.mem_cons_self ..
  | later _ ih => exact List.mem_append_right _ ih
  | inFor _ ih => exact List.mem_append_left _ (List.mem_cons_of_mem _ ih)
  | inTest _ ih => exact List.mem_append_left _ (List.mem_cons_of_mem _ (List.mem_append_left _ ih))
  | inWhile _ ih => exact List.mem_append_left _ (List.mem_cons_of_mem _ (List.mem_append_right _ ih))
  | inThen _ ih => exact List.mem_append_left _ (List.mem_cons_of_mem _ (List.mem_append_left _ ih))
  | inElse _ ih => exact List.mem_append_left _ (List.mem_cons_of_mem _ (List.mem_append_right _ ih))

mutual

theorem occurs_of_mem_flatten {x : Stmt} {ss : List Stmt} (h : s ∈ x.flatten) :
    Occurs s (x :: ss) := by
  cases x with
  | op i o =>
    rw [List.mem_singleton.1 h]
    exact .here
  | rangeFor i first last body hint =>
    rcases List.mem_cons.1 h with rfl | h
    · exact .here
    · exact .inFor (occurs_of_mem_flattenAll h)
  | while_ i condBody cond body =>
    rcases List.mem_cons.1 h with rfl | h
    · exact .here
    · rcases List.mem_append.1 h with h | h
      · exact .inTest (occurs_of_mem_flattenAll h)
      · exact .inWhile (occurs_of_mem_flattenAll h)
  | ifElse i cond yes no =>
    rcases List.mem_cons.1 h with rfl | h
    · exact .here
    · rcases List.mem_append.1 h with h | h
      · exact .inThen (occurs_of_mem_flattenAll h)
      · exact .inElse (occurs_of_mem_flattenAll h)

theorem occurs_of_mem_flattenAll {ss : List Stmt} (h : s ∈ Stmt.flattenAll ss) : Occurs s ss := by
  cases ss with
  | nil => cases h
  | cons x ss =>
    rcases List.mem_append.1 h with h | h
    · exact occurs_of_mem_flatten h
    · exact .later (occurs_of_mem_flattenAll h)

end

/-- The statement is one of the task: of those that compute the bounds, or of the body, at any
depth. -/
def Task.Contains (t : Task) (s : Stmt) : Prop :=
  (∃ loop, t.loop = some loop ∧ Occurs s loop.prologue) ∨ Occurs s t.body

theorem Task.contains_iff : t.Contains s ↔ s ∈ t.statements := by
  have hblock : ∀ ss : List Stmt, Occurs s ss ↔ s ∈ Stmt.flattenAll ss := fun ss =>
    ⟨Occurs.mem_flattenAll, occurs_of_mem_flattenAll⟩
  obtain ⟨loop, body⟩ := t
  cases loop with
  | none | some loop => simp [Task.Contains, Task.statements, hblock]

/-! ## 2. Which slots are shared -/

inductive Accesses (slot : StmtId) : Op → Prop where
  | load (indices : List Operand) (ty : Ty) : Accesses slot (.localLoad slot indices ty)
  | store (indices : List Operand) (value : Operand) : Accesses slot (.localStore slot indices value)
  | atomic (indices : List Operand) (kind : AtomicKind) (value : Operand) (ty : Ty) :
    Accesses slot (.atomic (.local slot indices) kind value ty)

theorem accesses_iff {o : Op} : Accesses slot o ↔ o.slot? = some slot := by
  constructor
  · rintro ⟨⟩ <;> rfl
  · intro h
    cases o with
    | localLoad s is ty =>
      cases h
      exact .load is ty
    | localStore s is value =>
      cases h
      exact .store is value
    | atomic target kind value ty =>
      cases target with
      | global f p => cases h
      | «local» s is =>
        cases h
        exact .atomic is kind value ty
    | _ => cases h

theorem Task.mem_used : slot ∈ t.used ↔ ∃ i o, t.Contains (.op i o) ∧ Accesses slot o := by
  simp only [Task.used, Task.ops, List.mem_filterMap, Task.contains_iff, accesses_iff]
  constructor
  · rintro ⟨o, ⟨s, hs, ho⟩, hslot⟩
    cases s with
    | op i o' =>
      cases ho
      exact ⟨i, o, hs, hslot⟩
    | _ => cases ho
  · rintro ⟨i, o, hs, hslot⟩
    exact ⟨o, ⟨_, hs, rfl⟩, hslot⟩

theorem Task.mem_declared {ty : Ty} :
    (slot, ty) ∈ t.declared ↔ ∃ hint, t.Contains (.op slot (.alloca ty hint)) := by
  simp only [Task.declared, List.mem_filterMap, Task.contains_iff]
  constructor
  · rintro ⟨s, hs, hd⟩
    cases s with
    | op i o =>
      cases o with
      | alloca ty' hint =>
        cases hd
        exact ⟨hint, hs⟩
      | _ => cases hd
    | _ => cases hd
  · rintro ⟨hint, hs⟩
    exact ⟨_, hs, rfl⟩

def Crosses (k : Kernel) (slot : StmtId) : Prop :=
  ∃ (home other : Nat) (t u : Task), k.tasks[home]? = some t ∧ k.tasks[other]? = some u ∧ home ≠ other
    ∧ (∃ ty hint, t.Contains (.op slot (.alloca ty hint))) ∧ ∃ i o, u.Contains (.op i o) ∧ Accesses slot o

theorem exists_shared_iff : (∃ x ∈ k.shareSlots.shared, x.slot = slot) ↔ Crosses k slot := by
  have hmem : (∃ x ∈ k.shareSlots.shared, x.slot = slot) ↔ slot ∈ (sharedSlots k.tasks).map Prod.fst := by
    rw [← map_slot_placeSlots 0, List.mem_map]
    rfl
  rw [hmem, List.mem_map]
  constructor
  · rintro ⟨⟨s, ty⟩, hx, rfl⟩
    obtain ⟨home, t, ht, hdeclared, other, u, hu, hne, hused⟩ := mem_sharedSlots.1 hx
    obtain ⟨hint, halloca⟩ := Task.mem_declared.1 hdeclared
    exact ⟨home, other, t, u, ht, hu, hne.symm, ⟨ty, hint, halloca⟩, Task.mem_used.1 hused⟩
  · rintro ⟨home, other, t, u, ht, hu, hne, ⟨ty, hint, halloca⟩, hused⟩
    have hdeclared := Task.mem_declared.2 ⟨hint, halloca⟩
    exact ⟨(slot, ty), mem_sharedSlots.2 ⟨home, t, ht, hdeclared, other, u, hu, hne.symm, Task.mem_used.2 hused⟩, rfl⟩

theorem exists_alloca_of_shared {x : SharedSlot} (hx : x ∈ k.shareSlots.shared) :
    ∃ t ∈ k.tasks, ∃ hint, t.Contains (.op x.slot (.alloca x.ty hint)) := by
  obtain ⟨home, t, ht, hdeclared, -⟩ := mem_sharedSlots.1 (mem_of_mem_placeSlots hx)
  exact ⟨t, List.mem_of_getElem? ht, Task.mem_declared.1 hdeclared⟩

/-! ## 3. Their order -/

theorem insertSlot_sorted (x : StmtId × Ty) {xs : List (StmtId × Ty)}
    (h : xs.Pairwise fun x y => x.1 ≤ y.1) : (insertSlot x xs).Pairwise fun x y => x.1 ≤ y.1 := by
  induction xs with
  | nil => exact List.pairwise_singleton _ _
  | cons y ys ih =>
    obtain ⟨hy, hys⟩ := List.pairwise_cons.1 h
    rw [insertSlot]
    by_cases hle : x.1 ≤ y.1
    · rw [if_pos hle, List.pairwise_cons]
      refine ⟨fun z hz => ?_, h⟩
      rcases List.mem_cons.1 hz with rfl | hz
      · exact hle
      · exact hle.trans (hy z hz)
    · rw [if_neg hle, List.pairwise_cons]
      refine ⟨fun z hz => ?_, ih hys⟩
      rcases List.mem_cons.1 (insertSlot_perm.mem_iff.1 hz) with rfl | hz
      · exact Nat.le_of_not_le hle
      · exact hy z hz

theorem foldr_insertSlot_sorted {xs : List (StmtId × Ty)} :
    (xs.foldr insertSlot []).Pairwise fun x y => x.1 ≤ y.1 := by
  induction xs with
  | nil => exact .nil
  | cons x xs ih => exact insertSlot_sorted x ih

theorem shared_sorted (h : (k.statements.map Stmt.id).Nodup) :
    k.shareSlots.shared.Pairwise fun x y => x.slot < y.slot := by
  rw [Kernel.statements, List.map_flatMap] at h
  have hle : ((sharedSlots k.tasks).map Prod.fst).Pairwise (· ≤ ·) := List.pairwise_map.2 foldr_insertSlot_sorted
  have hlt := hle.imp₂ (fun a b hab hne => lt_of_le_of_ne hab hne) (nodup_sharedSlots_of_statements h)
  rw [← map_slot_placeSlots 0] at hlt
  exact List.pairwise_map.1 hlt

/-! ## 4. Their words -/

def SharedSlot.words (x : SharedSlot) : Set Nat := Set.Ico x.offset (x.offset + x.ty.size)

/-- The slots take the words from the first bound to the second, each from where the one before it
ends. -/
def Tiles : Nat → List SharedSlot → Nat → Prop
  | low, [], high => low = high
  | low, x :: xs, high => x.offset = low ∧ Tiles (low + x.ty.size) xs high

theorem Tiles.le (h : Tiles low xs high) : low ≤ high ∧ ∀ x ∈ xs, low ≤ x.offset := by
  induction xs generalizing low with
  | nil => exact ⟨le_of_eq h, List.forall_mem_nil _⟩
  | cons x xs ih =>
    obtain ⟨hx, hxs⟩ := h
    obtain ⟨hle, hrest⟩ := ih hxs
    refine ⟨by omega, List.forall_mem_cons.2 ⟨by omega, fun y hy => ?_⟩⟩
    have := hrest y hy
    omega

theorem Tiles.disjoint (h : Tiles low xs high) :
    xs.Pairwise fun x y => Disjoint x.words y.words := by
  induction xs generalizing low with
  | nil => exact List.Pairwise.nil
  | cons x xs ih =>
    obtain ⟨hx, hxs⟩ := h
    refine List.pairwise_cons.2 ⟨fun y hy => ?_, ih hxs⟩
    -- a later slot starts after the end of the first
    have hle : x.offset + x.ty.size ≤ y.offset := by
      rw [hx]
      exact hxs.le.2 y hy
    rw [Set.disjoint_left]
    intro w hw hw'
    exact absurd (hw.2.trans_le (hle.trans hw'.1)) (lt_irrefl w)

theorem Tiles.mem_words_iff (h : Tiles low xs high) (w : Nat) :
    (∃ x ∈ xs, w ∈ x.words) ↔ low ≤ w ∧ w < high := by
  induction xs generalizing low with
  | nil =>
    have heq : low = high := h
    simp only [List.not_mem_nil, false_and, exists_false, false_iff]
    omega
  | cons x xs ih =>
    obtain ⟨hx, hxs⟩ := h
    have hle := hxs.le.1
    have hfirst : w ∈ x.words ↔ low ≤ w ∧ w < low + x.ty.size := by rw [SharedSlot.words, hx, Set.mem_Ico]
    simp only [List.mem_cons, exists_eq_or_imp, ih hxs, hfirst]
    omega

theorem Tiles.foldl_max (h : Tiles low xs high) :
    (xs.map fun x => x.offset + x.ty.size).foldl max low = high := by
  induction xs generalizing low with
  | nil => exact h
  | cons x xs ih =>
    obtain ⟨hx, hxs⟩ := h
    rw [List.map_cons, List.foldl_cons, hx, Nat.max_eq_right (Nat.le_add_right _ _)]
    exact ih hxs

theorem tiles_placeSlots (offset : Nat) (xs : List (StmtId × Ty)) :
    Tiles offset (placeSlots offset xs) (offset + (xs.map fun x => x.2.size).sum) := by
  induction xs generalizing offset with
  | nil => rfl
  | cons x xs ih =>
    have h := ih (offset + x.2.size)
    rw [Nat.add_assoc] at h
    exact ⟨rfl, h⟩

theorem tiles_shared (k : Kernel) : Tiles 0 k.shareSlots.shared k.shareSlots.sharedWords := by
  have h := tiles_placeSlots 0 (sharedSlots k.tasks)
  have hwords : k.shareSlots.sharedWords = _ := h.foldl_max
  rw [hwords]
  exact h

end ArrayKernel.IR
