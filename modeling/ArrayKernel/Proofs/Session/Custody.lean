import Mathlib.Data.List.Nodup
import ArrayKernel.Proofs.Number.Words
import ArrayKernel.Session.Launch

/-!
# Who holds a buffer

A buffer is that of a field, or free in a pool, or on loan to a pending launch or to the operation
that is running, and never two of these. Buffers for results are never written, so they are zero.
-/

namespace ArrayKernel

open Number List

variable {b : Buffer} {id : BufferId}

/-! ## 1. Contents of buffers -/

namespace Buffer

variable {data : Array UInt8}

theorem bytes_write (h : data.size ≤ b.size) :
    (b.write 0 data).bytes = data ++ b.bytes.extract data.size b.size := by
  have hmin : min (0 + data.size) b.size = data.size := by rw [Nat.zero_add, Nat.min_eq_left h]
  simp only [write, Nat.zero_min, hmin]
  simp

theorem read_write (h : data.size ≤ b.size) : (b.write 0 data).read data.size = data := by
  rw [read, bytes_write h]
  simp

end Buffer

namespace Device

theorem buffer_of_getElem? {d : Device} (h : d.buffers[id.index]? = some b) : d.buffer id = b := by
  rw [buffer, Array.getD_eq_getD_getElem?, h]
  rfl

end Device

/-! ## 2. Custody -/

def IsLoan (bs : Array Buffer) (x : Usage × PooledBuffer) : Prop :=
  ∃ b, bs[x.2.buffer.index]? = some b ∧ b.usage = x.1 ∧ b.size = x.2.capacity

def IsStored (bs : Array Buffer) (f : StoredField) : Prop :=
  ∃ b, bs[f.buffer.index]? = some b ∧ b.usage = .field ∧ f.info.bytes = .ok b.size

/-- No buffer is held twice, each is what its holder takes it for, and those for results are zero.
-/
structure Custody (bs : Array Buffer) (fields : Array StoredField)
    (loans : List (Usage × PooledBuffer)) : Prop where
  apart : (fields.toList.map (·.buffer) ++ loans.map (·.2.buffer)).Nodup
  loans : ∀ x ∈ loans, IsLoan bs x
  fields : ∀ f ∈ fields, IsStored bs f
  zero : ∀ b ∈ bs, b.usage = .rets → b.bytes = Array.replicate b.size 0

theorem getElem?_push_of_some {α : Type} {xs : Array α} {i : Nat} {y : α} {x : α}
    (h : xs[i]? = some y) : (xs.push x)[i]? = some y := by
  obtain ⟨hi, -⟩ := Array.getElem?_eq_some_iff.1 h
  rw [Array.getElem?_push_lt hi, ← Array.getElem?_eq_getElem hi, h]

section Kept

variable {bs : Array Buffer} {data : Array UInt8} {id : BufferId} {x : Usage × PooledBuffer}
  {f : StoredField}

abbrev written (bs : Array Buffer) (id : BufferId) (data : Array UInt8) : Array Buffer :=
  bs.modify id.index (·.write 0 data)

theorem IsLoan.written (h : IsLoan bs x) : IsLoan (written bs id data) x := by
  obtain ⟨b, hb, husage, hsize⟩ := h
  rw [IsLoan, Array.getElem?_modify, hb]
  split
  · exact ⟨_, rfl, husage, (b.size_write 0 data).trans hsize⟩
  · exact ⟨b, rfl, husage, hsize⟩

theorem IsStored.written (h : IsStored bs f) : IsStored (written bs id data) f := by
  obtain ⟨b, hb, husage, hsize⟩ := h
  rw [IsStored, Array.getElem?_modify, hb]
  split
  · exact ⟨_, rfl, husage, hsize.trans (congrArg Except.ok (b.size_write 0 data).symm)⟩
  · exact ⟨b, rfl, husage, hsize⟩

theorem IsLoan.push (h : IsLoan bs x) (b : Buffer) : IsLoan (bs.push b) x := by
  obtain ⟨c, hc, hrest⟩ := h
  exact ⟨c, getElem?_push_of_some hc, hrest⟩

theorem IsStored.push (h : IsStored bs f) (b : Buffer) : IsStored (bs.push b) f := by
  obtain ⟨c, hc, hrest⟩ := h
  exact ⟨c, getElem?_push_of_some hc, hrest⟩

end Kept

namespace Custody

variable {bs : Array Buffer} {fields : Array StoredField}
  {loans loans' : List (Usage × PooledBuffer)} {label : String} {usage : Usage} {size : Nat}

theorem perm (h : Custody bs fields loans) (hp : loans.Perm loans') : Custody bs fields loans' where
  apart := (((hp.map _).append_left _).nodup_iff).1 h.apart
  loans x hx := h.loans x (hp.mem_iff.2 hx)
  fields := h.fields
  zero := h.zero

theorem lt_size (h : Custody bs fields loans)
    (hid : id ∈ fields.toList.map (·.buffer) ++ loans.map (·.2.buffer)) : id.index < bs.size := by
  rcases mem_append.1 hid with hid | hid
  · obtain ⟨f, hf, rfl⟩ := mem_map.1 hid
    obtain ⟨b, hb, -⟩ := h.fields f (Array.mem_toList_iff.1 hf)
    exact (Array.getElem?_eq_some_iff.1 hb).1
  · obtain ⟨x, hx, rfl⟩ := mem_map.1 hid
    obtain ⟨b, hb, -⟩ := h.loans x hx
    exact (Array.getElem?_eq_some_iff.1 hb).1

theorem not_mem_new (h : Custody bs fields loans) :
    (⟨bs.size⟩ : BufferId) ∉ fields.toList.map (·.buffer) ++ loans.map (·.2.buffer) :=
  fun hmem => Nat.lt_irrefl _ (h.lt_size hmem)

theorem zero_push (h : Custody bs fields loans) :
    ∀ b ∈ bs.push (.zeroed label size usage), b.usage = .rets → b.bytes = Array.replicate b.size 0 := by
  intro b hb husage
  rcases Array.mem_push.1 hb with hb | rfl
  · exact h.zero b hb husage
  · rw [Buffer.size_zeroed]
    rfl

theorem lend (h : Custody bs fields loans) :
    Custody (bs.push (.zeroed label size usage)) fields ((usage, ⟨⟨bs.size⟩, size⟩) :: loans) where
  apart := by
    rw [map_cons, nodup_middle]
    exact nodup_cons.2 ⟨h.not_mem_new, h.apart⟩
  loans := by
    refine forall_mem_cons.2 ⟨⟨_, Array.getElem?_push_size, rfl, Buffer.size_zeroed ..⟩, fun x hx => ?_⟩
    exact (h.loans x hx).push _
  fields f hf := (h.fields f hf).push _
  zero := h.zero_push

theorem store {info : FieldInfo} (h : Custody bs fields loans) (label : String)
    (hsize : info.bytes = .ok size) :
    Custody (bs.push (.zeroed label size .field)) (fields.push ⟨info, ⟨bs.size⟩⟩) loans where
  apart := by
    rw [Array.toList_push, map_append, append_assoc, map_singleton, singleton_append, nodup_middle]
    exact nodup_cons.2 ⟨h.not_mem_new, h.apart⟩
  loans x hx := (h.loans x hx).push _
  fields f hf := by
    rcases Array.mem_push.1 hf with hf | rfl
    · exact (h.fields f hf).push _
    · exact ⟨_, Array.getElem?_push_size, rfl, hsize.trans (congrArg Except.ok (Buffer.size_zeroed ..).symm)⟩
  zero := h.zero_push

theorem write (h : Custody bs fields loans) (hb : bs[id.index]? = some b) (husage : b.usage ≠ .rets)
    (data : Array UInt8) : Custody (written bs id data) fields loans where
  apart := h.apart
  loans x hx := (h.loans x hx).written
  fields f hf := (h.fields f hf).written
  zero c hc hrets := by
    obtain ⟨i, hi⟩ := Array.mem_iff_getElem?.1 hc
    rw [Array.getElem?_modify] at hi
    split at hi
    · subst i
      rw [hb] at hi
      cases hi
      exact absurd hrets husage
    · exact h.zero c (Array.mem_of_getElem? hi) hrets

theorem field_ne_loan (h : Custody bs fields loans) {f : StoredField} {x : Usage × PooledBuffer}
    (hf : f ∈ fields) (hx : x ∈ loans) : f.buffer ≠ x.2.buffer :=
  (nodup_append.1 h.apart).2.2 _ (mem_map_of_mem (Array.mem_toList_iff.2 hf)) _ (mem_map_of_mem hx)

end Custody

end ArrayKernel
