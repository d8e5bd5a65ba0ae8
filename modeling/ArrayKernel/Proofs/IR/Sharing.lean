import Mathlib.Data.List.Flatten
import ArrayKernel.Proofs.IR.Definitions

/-!
# Slots that several tasks use

`sharedSlots` are the slots that one task makes and another uses. If the ids of the tasks are
distinct, each slot is placed once, after the words of the slots before it, and all of them fit into
the words of the buffer.
-/

namespace ArrayKernel.IR

open List

variable {tasks : List Task} {x : StmtId × Ty} {k : Kernel} {xs : List (StmtId × Ty)}

/-! ## 1. Which slots are shared -/

theorem insertSlot_perm : (insertSlot x xs).Perm (x :: xs) := by
  induction xs with
  | nil => exact .refl _
  | cons y ys ih =>
    rw [insertSlot]
    split
    · exact .refl _
    · exact (ih.cons y).trans (.swap x y ys)

theorem foldr_insertSlot_perm : (xs.foldr insertSlot []).Perm xs := by
  induction xs with
  | nil => exact .refl _
  | cons x xs ih => exact insertSlot_perm.trans (ih.cons x)

theorem mem_sharedSlots :
    x ∈ sharedSlots tasks ↔ ∃ (home : Nat) (t : Task), tasks[home]? = some t ∧ x ∈ t.declared
      ∧ ∃ (other : Nat) (u : Task), tasks[other]? = some u ∧ other ≠ home ∧ x.1 ∈ u.used := by
  simp only [sharedSlots, foldr_insertSlot_perm.mem_iff, mem_flatMap, mem_filter, any_eq_true,
    mem_zipIdx_iff_getElem?, Prod.exists, Bool.and_eq_true, bne_iff_ne, contains_iff_mem]
  constructor
  · rintro ⟨t, home, ht, hx, u, other, hu, hne, hused⟩
    exact ⟨home, t, ht, hx, other, u, hu, hne, hused⟩
  · rintro ⟨home, t, ht, hx, other, u, hu, hne, hused⟩
    exact ⟨t, home, ht, hx, u, other, hu, hne, hused⟩

/-- The ids of the statements of a task are among its ids, in their order. -/
theorem Task.map_id_sublist (t : Task) : (t.statements.map Stmt.id).Sublist t.ids := by
  obtain ⟨loop, body⟩ := t
  cases loop with
  | none => exact .refl _
  | some l =>
    show (List.map Stmt.id (Stmt.flattenAll l.prologue ++ Stmt.flattenAll body)).Sublist _
    rw [map_append]
    exact .append (sublist_append_left _ _) (.refl _)

theorem Stmt.id_of_declared {s : Stmt} (h : s.declared? = some x) : x.1 = s.id := by
  cases s with
  | op i o =>
    cases o with
    | alloca ty hint =>
      cases h
      rfl
    | _ => cases h
  | _ => cases h

theorem declared_sublist {ss : List Stmt} :
    ((ss.filterMap Stmt.declared?).map Prod.fst).Sublist (ss.map Stmt.id) := by
  induction ss with
  | nil => exact .refl _
  | cons s ss ih =>
    cases hs : s.declared? with
    | none =>
      rw [filterMap_cons_none hs, map_cons]
      exact ih.cons _
    | some x =>
      rw [filterMap_cons_some hs, map_cons, map_cons, Stmt.id_of_declared hs]
      exact ih.cons_cons _

theorem nodup_sharedSlots_of_statements
    (h : (tasks.flatMap fun t => t.statements.map Stmt.id).Nodup) :
    ((sharedSlots tasks).map Prod.fst).Nodup := by
  rw [sharedSlots, (foldr_insertSlot_perm.map Prod.fst).nodup_iff, map_flatMap]
  have hids : (tasks.flatMap fun t => t.statements.map Stmt.id) = tasks.zipIdx.flatMap fun x =>
    x.1.statements.map Stmt.id := by
    rw [← flatMap_map Prod.fst fun t : Task => t.statements.map Stmt.id, zipIdx_map_fst]
  rw [hids] at h
  exact h.sublist (.flatMap_right _ fun x _ => (filter_sublist.map _).trans declared_sublist)

theorem nodup_sharedSlots (h : (tasks.flatMap Task.ids).Nodup) :
    ((sharedSlots tasks).map Prod.fst).Nodup :=
  nodup_sharedSlots_of_statements (h.sublist (.flatMap_right _ fun t _ => t.map_id_sublist))

/-! ## 2. Where they are placed -/

theorem map_slot_placeSlots (offset : Nat) (xs : List (StmtId × Ty)) :
    (placeSlots offset xs).map SharedSlot.slot = xs.map Prod.fst := by
  induction xs generalizing offset with
  | nil => rfl
  | cons x xs ih => rw [placeSlots, map_cons, map_cons, ih]

theorem mem_of_mem_placeSlots {offset : Nat} {s : SharedSlot} (h : s ∈ placeSlots offset xs) :
    (s.slot, s.ty) ∈ xs := by
  induction xs generalizing offset with
  | nil => cases h
  | cons x xs ih =>
    rcases mem_cons.1 h with rfl | h
    · exact mem_cons_self ..
    · exact mem_cons_of_mem _ (ih h)

theorem declared_of_shared (hk : k.shareSlots = k) {x : SharedSlot} (hx : x ∈ k.shared) :
    ∃ t ∈ k.tasks, (x.slot, x.ty) ∈ t.declared := by
  rw [← hk] at hx
  obtain ⟨home, t, ht, hdeclared, -⟩ := mem_sharedSlots.1 (mem_of_mem_placeSlots hx)
  exact ⟨t, mem_of_getElem? ht, hdeclared⟩

theorem le_foldl_max (ns : List Nat) (m : Nat) :
    m ≤ ns.foldl max m ∧ ∀ n ∈ ns, n ≤ ns.foldl max m := by
  induction ns generalizing m with
  | nil => exact ⟨Nat.le_refl m, forall_mem_nil _⟩
  | cons n ns ih =>
    obtain ⟨hm, hns⟩ := ih (max m n)
    refine ⟨Nat.le_trans (Nat.le_max_left m n) hm, forall_mem_cons.2 ⟨?_, hns⟩⟩
    exact Nat.le_trans (Nat.le_max_right m n) hm

theorem offset_add_size_le {x : SharedSlot} (hx : x ∈ k.shared) :
    x.offset + x.ty.size ≤ k.sharedWords :=
  (le_foldl_max _ 0).2 _ (mem_map.2 ⟨x, hx, rfl⟩)

end ArrayKernel.IR
