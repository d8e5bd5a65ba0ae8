import ArrayKernel.Scope.Bindings

/-!
# Tables of names

The names of a table go up, and inserting keeps them so. Such a table is told by what its names
stand for, whatever the order in which they were inserted.
-/

namespace ArrayKernel.Scope

open List

variable {s s' : Scope} {name : String} {value : Value} {t : List (String × Value)}
  {e : String × Value}

/-! ## 1. Names in order -/

def Ascending (t : List (String × Value)) : Prop := t.Pairwise fun x y => x.1 < y.1

theorem mem_insertInto (h : e ∈ insertInto name value t) :
    e = (name, value) ∨ e ∈ t := by
  induction t with
  | nil => exact .inl (mem_singleton.1 h)
  | cons p rest ih =>
    unfold insertInto at h
    split at h
    · exact mem_cons.1 h
    · split at h
      · exact (mem_cons.1 h).imp_right (mem_cons_of_mem _)
      · rcases mem_cons.1 h with rfl | h
        · exact .inr (mem_cons_self ..)
        · exact (ih h).imp_right (mem_cons_of_mem _)

theorem ascending_insertInto (h : Ascending t) : Ascending (insertInto name value t) := by
  induction t with
  | nil => exact pairwise_singleton _ _
  | cons p rest ih =>
    obtain ⟨k, w⟩ := p
    obtain ⟨hfirst, hrest⟩ := pairwise_cons.1 h
    unfold insertInto
    split
    · rename_i hlt
      refine pairwise_cons.2 ⟨fun e he => ?_, h⟩
      rcases mem_cons.1 he with rfl | he
      · exact hlt
      · exact String.lt_trans hlt (hfirst e he)
    · rename_i hge
      split
      · rename_i heq
        subst heq
        exact pairwise_cons.2 ⟨hfirst, hrest⟩
      · rename_i hne
        have hlt : k < name := String.not_le.1 fun hle => hne (String.le_antisymm hle (String.not_lt.1 hge))
        refine pairwise_cons.2 ⟨fun e he => ?_, ih hrest⟩
        rcases mem_insertInto he with rfl | he
        · exact hlt
        · exact hfirst e he

theorem get?_eq_some_iff (h : Ascending s.table) :
    s.get? name = some value ↔ (name, value) ∈ s.table := by
  unfold get?
  generalize s.table = t at h
  induction t with
  | nil => simp
  | cons p rest ih =>
    obtain ⟨k, w⟩ := p
    obtain ⟨hfirst, hrest⟩ := pairwise_cons.1 h
    rw [find?_cons]
    by_cases hk : k = name
    · subst hk
      simp only [beq_self_eq_true, Option.map_some, Option.some.injEq, mem_cons, Prod.mk.injEq, true_and]
      refine ⟨fun heq => .inl heq.symm, ?_⟩
      rintro (heq | hmem)
      · exact heq.symm
      · exact absurd (hfirst _ hmem) (String.lt_irrefl k)
    · simp only [beq_eq_false_iff_ne.2 hk, mem_cons, Prod.mk.injEq, Ne.symm hk, false_and, false_or]
      exact ih hrest

theorem table_eq_of_get? (h : Ascending s.table) (h' : Ascending s'.table)
    (heq : ∀ n, s.get? n = s'.get? n) : s.table = s'.table := by
  have hmem : ∀ e, e ∈ s.table ↔ e ∈ s'.table := by
    rintro ⟨n, v⟩
    rw [← get?_eq_some_iff h, ← get?_eq_some_iff h', heq]
  have hnodup {t : List (String × Value)} (ht : Ascending t) : t.Nodup := by
    refine .imp ?_ ht
    rintro a _ hlt rfl
    exact String.lt_irrefl a.1 hlt
  have hperm : s.table.Perm s'.table := (perm_ext_iff_of_nodup (hnodup h) (hnodup h')).2 hmem
  exact hperm.eq_of_pairwise (fun _ _ _ _ hlt hgt => absurd hgt (String.lt_asymm hlt)) h h'

/-! ## 2. Values by name -/

/-- The names that some entries give, the later ones in place of the earlier. -/
def ofEntries (entries : List (String × Value)) : Scope :=
  entries.foldl (fun s e => s.insert e.1 e.2) {}

theorem ascending_ofEntries (entries : List (String × Value)) :
    Ascending (ofEntries entries).table := by
  have hfold : ∀ s : Scope, Ascending s.table → Ascending (entries.foldl (fun s e => s.insert e.1 e.2) s).table := by
    induction entries with
    | nil => exact fun _ h => h
    | cons e entries ih => exact fun s h => ih _ (ascending_insertInto h)
  exact hfold {} .nil

theorem get?_ofEntries (entries : List (String × Value)) (name : String) :
    (ofEntries entries).get? name = entries.reverse.lookup name := by
  have hfold : ∀ s : Scope, (entries.foldl (fun s e => s.insert e.1 e.2) s).get? name
      = (entries.reverse.lookup name).or (s.get? name) := by
    induction entries with
    | nil => exact fun _ => rfl
    | cons e entries ih =>
      intro s
      rw [foldl_cons, ih, reverse_cons, lookup_append, get?_insert, lookup_cons, lookup_nil]
      by_cases h : e.1 = name
      · simp [h]
      · rw [beq_eq_false_iff_ne.2 (Ne.symm h)]
        simp [h]
  rw [ofEntries, hfold]
  exact Option.or_none

theorem mem_ofEntries {entries : List (String × Value)} :
    e ∈ (ofEntries entries).table → e ∈ entries := by
  have hfold : ∀ s : Scope, e ∈ (entries.foldl (fun s e => s.insert e.1 e.2) s).table → e ∈ s.table ∨ e ∈ entries := by
    induction entries with
    | nil => exact fun _ => .inl
    | cons x entries ih =>
      intro s hs
      rcases ih (s.insert x.1 x.2) hs with hs | hs
      · exact (mem_insertInto hs).elim (fun heq => .inr (heq ▸ mem_cons_self ..)) .inl
      · exact .inr (mem_cons_of_mem _ hs)
  exact fun h => (hfold {} h).resolve_left not_mem_nil

end ArrayKernel.Scope
