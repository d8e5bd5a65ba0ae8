import ArrayKernel.Proofs.Shader.SlotRuns

/-!
# Sharing keeps what an access means

A shared slot has words of a buffer, row by row; any other is a variable, in which a matrix is one
of columns. What is read from one part after another has been written is the same in both
(`promotionKeeps`).
-/

namespace ArrayKernel.Shader

open IR ArrayKernel.Field List

variable {t : Target} {e : Emitter} {home : Home}

/-! ## 1. A store and a load -/

/-- A store to a part of a slot, and a load of a part of it. -/
structure WriteRead where
  slot : StmtId
  ty : Ty
  flat : ty.isStruct = false
  /-- The indices and the type of the part that is written, and the value. -/
  written : List Operand
  writtenTy : Ty
  value : Operand
  /-- The indices and the type of the part that is read. -/
  read : List Operand
  readTy : Ty
  selects_written : ty.select written.length = some writtenTy
  selects_read : ty.select read.length = some readTy
  apart : .stmt slot ∉ value :: (written ++ read)

namespace WriteRead

def block (x : WriteRead) (id id' : StmtId) : List Stmt :=
  [.op id (.localStore x.slot x.written x.value), .op id' (.localLoad x.slot x.read x.readTy)]

def lines (x : WriteRead) (id id' : StmtId) (home : Home) (t : Target) (e : Emitter) :
    List String :=
  (emitBlock (x.block id id') t { e with slots := e.slots.insert x.slot (home.slot x.ty) }).2.lines.toList

def actions (x : WriteRead) (id' : StmtId) (home : Home) (t : Target) (e : Emitter) : List Action :=
  home.store t e x.ty x.writtenTy x.written x.value
    ++ [.define (valueName id') x.readTy (home.load t e x.ty x.readTy x.read)]

structure Given (x : WriteRead) (t : Target) (e : Emitter) (m : Memory)
    (w : Leaf x.writtenTy → UInt32) (ks ls : List Nat) : Prop where
  value : m.term (valueTerm t e x.value) = some ⟨x.writtenTy, w⟩
  written : Indexes t e m x.written ks
  read : Indexes t e m x.read ls

end WriteRead

/-- Values are called by the ids of their statements. -/
def Named (e : Emitter) : Prop := ∀ id x, e.values[id]? = some x → OfId id (wordOf x.1)

theorem Named.apart (h : Named e) {s : StmtId} {os : List Operand} (hs : .stmt s ∉ os)
    (hint : String) (t : Target) : (Home.variable (varName s hint)).Apart t e os := by
  intro id hid heq
  have hname : OfId id (wordOf (operand (.stmt id) t e).1) := by
    show OfId id (wordOf (((e.values[id]?).map Prod.fst).getD (valueName id)))
    cases hx : e.values[id]? with
    | none => exact ofId_valueName
    | some x => exact h id x hx
  rw [heq] at hname
  cases hname.id_eq ofId_varName
  exact hs hid

theorem Home.Apart.mono {os os' : List Operand} (h : home.Apart t e os) (hsub : os' ⊆ os) :
    home.Apart t e os' := by
  cases home with
  | «variable» name => exact fun id hid => h id (hsub hid)
  | words offset => trivial

namespace WriteRead

theorem actions_congr {e' : Emitter} (h : e'.values = e.values) {x : WriteRead} {id' : StmtId} :
    x.actions id' home t e' = x.actions id' home t e := by
  rw [actions, actions, Home.store_congr h, Home.load_congr h]

theorem lines_eq (x : WriteRead) (hb : Bound t e) (ho : (operandTy x.value t e).1 = x.writtenTy)
    (id id' : StmtId) (home : Home) :
    x.lines id id' home t e = e.lines.toList ++ (x.actions id' home t e).map fun a =>
      indentation e.depth ++ a.text := by
  have hslot : (e.slots.insert x.slot (home.slot x.ty))[x.slot]? = some (home.slot x.ty) :=
    Std.HashMap.getElem?_insert_self
  have hb' : Bound t { e with slots := e.slots.insert x.slot (home.slot x.ty) } := ⟨hb.nodup, hb.bindings⟩
  have ho' : (operandTy x.value t { e with slots := e.slots.insert x.slot (home.slot x.ty) }).1 = x.writtenTy := by
    cases hv : x.value <;> rw [hv] at ho <;> exact ho
  have hactions : x.actions id' home t { e with slots := e.slots.insert x.slot (home.slot x.ty) }
      = x.actions id' home t e := by
    apply actions_congr
    rfl
  rw [← hactions]
  exact lines_store_load hb' hslot x.selects_written x.selects_read ho' id id'

theorem run_actions (x : WriteRead) (home : Home)
    (hapart : home.Apart t e (x.value :: (x.written ++ x.read))) {m : Memory}
    {g : Leaf x.ty → UInt32} {w : Leaf x.writtenTy → UInt32} {ks ls : List Nat}
    {p : Portion x.ty x.writtenTy} {p' : Portion x.ty x.readTy} (hp : Selects x.ty ks p)
    (hp' : Selects x.ty ls p') (hgiven : x.Given t e m w ks ls) (h : home.Holds x.ty m g)
    (id' : StmtId) :
    ∃ m1, run (x.actions id' home t e) m = some (m1.setVar (valueName id') ⟨x.readTy, p.overwrite w g ∘ p'.leaf⟩)
      ∧ home.Wrote x.ty m m1 (p.overwrite w g) := by
  have hfirst : x.value :: x.written ⊆ x.value :: (x.written ++ x.read) :=
    cons_subset_cons _ (subset_append_left _ _)
  obtain ⟨m1, hrun, hwrote⟩ := home.run_store x.flat hgiven.written hp h hgiven.value (hapart.mono hfirst)
  have hread : Indexes t e m1 x.read ls := by
    apply hwrote.elsewhere.indexes hapart _ hgiven.read
    exact List.Subset.trans (subset_append_right _ _) (subset_cons_self _ _)
  have hload := home.formula_load x.flat hread hp' hwrote.holds
  refine ⟨m1, ?_, hwrote⟩
  rw [actions, run_append, hrun, Option.bind_some, run_singleton]
  simp only [Action.exec, hload, bind, pure, Option.bind_some, if_true]

end WriteRead

/-! ## 2. Either home -/

/-- A slot means the same whether it is a variable or has words of the buffer. -/
structure KeepsMeaning (x : WriteRead) (t : Target) (e : Emitter) (hint : String) (offset : Nat)
    (id id' : StmtId) : Prop where
  /-- In either home, the lines are those of the actions. -/
  lines : ∀ home, x.lines id id' home t e
    = e.lines.toList ++ (x.actions id' home t e).map fun a => indentation e.depth ++ a.text
  /-- From the same scalars, both homes come to the same scalars, and the same is read: what has
  been written where the two parts meet, and elsewhere what was there before. -/
  agree : ∀ {m m' : Memory} {g : Leaf x.ty → UInt32} {w : Leaf x.writtenTy → UInt32} {ks ls : List Nat}
    {p : Portion x.ty x.writtenTy} {p' : Portion x.ty x.readTy}, Selects x.ty ks p → Selects x.ty ls p' →
    x.Given t e m w ks ls → x.Given t e m' w ks ls →
    (Home.variable (varName x.slot hint)).Holds x.ty m g → (Home.words offset).Holds x.ty m' g →
    ∃ m₁ m₁' result, run (x.actions id' (.variable (varName x.slot hint)) t e) m
        = some (m₁.setVar (valueName id') result)
      ∧ run (x.actions id' (.words offset) t e) m' = some (m₁'.setVar (valueName id') result)
      ∧ result = ⟨x.readTy, p.overwrite w g ∘ p'.leaf⟩
      ∧ (Home.variable (varName x.slot hint)).Wrote x.ty m m₁ (p.overwrite w g)
      ∧ (Home.words offset).Wrote x.ty m' m₁' (p.overwrite w g)
  /-- No word outside of the slot is read or written. -/
  within : ∀ {m' : Memory} {w : Leaf x.writtenTy → UInt32} {ks ls : List Nat} {p : Portion x.ty x.writtenTy}
    {p' : Portion x.ty x.readTy}, Selects x.ty ks p → Selects x.ty ls p' → x.Given t e m' w ks ls →
    ∀ a ∈ (x.actions id' (.words offset) t e).flatMap Action.addresses,
      ∃ k < x.ty.size, m'.address a = some (Int32.ofNat (offset + k))

/-- Moving a slot from a variable into the buffer changes nothing that can be read from it. -/
theorem promotionKeeps (x : WriteRead) (hb : Bound t e) (hnamed : Named e)
    (ho : (operandTy x.value t e).1 = x.writtenTy) (hint : String) (offset : Nat)
    (id id' : StmtId) : KeepsMeaning x t e hint offset id id' where
  lines home := x.lines_eq hb ho id id' home
  agree hp hp' hm hm' h h' := by
    obtain ⟨m₁, hrun, hwrote⟩ := x.run_actions _ (hnamed.apart x.apart hint t) hp hp' hm h id'
    obtain ⟨m₁', hrun', hwrote'⟩ := x.run_actions (.words offset) trivial hp hp' hm' h' id'
    exact ⟨m₁, m₁', _, hrun, hrun', rfl, hwrote, hwrote'⟩
  within hp hp' hm' a ha := by
    rw [WriteRead.actions, List.flatMap_append, List.flatMap_singleton] at ha
    rcases List.mem_append.1 ha with ha | ha
    · obtain ⟨k, hk, rfl⟩ := mem_addresses_storeWords ha
      exact address_within hm'.written hp offset hk
    · obtain ⟨k, hk, rfl⟩ := mem_addresses_loadWords ha
      exact address_within hm'.read hp' offset hk

/-! ## 3. A row and an entry -/

def rowThenEntry : WriteRead where
  slot := 5
  ty := .matrix .two .three
  flat := rfl
  written := [.stmt 7]
  writtenTy := .vector .f32 .three
  value := .stmt 8
  read := [.int 1, .stmt 9]
  readTy := .f32
  selects_written := rfl
  selects_read := rfl
  apart := by decide

def rowEmitter : Emitter :=
  { values := ({} : Std.HashMap StmtId (String × Ty)).insert 8 ("_8", .vector .f32 .three) }

theorem named_rowEmitter : Named rowEmitter := by
  intro id x hx
  rw [rowEmitter, Std.HashMap.getElem?_insert] at hx
  split at hx
  · next h =>
    cases hx
    rw [← eq_of_beq h]
    exact ofId_valueName
  · simp at hx

def rowTarget : Target where
  kernel := { name := "rows", params := [], ret := none, tasks := [], fields := [], textures := [] }
  index := 0
  usage := {}

def rowMemory : Memory where
  vars x :=
    if x = "_5_m" then some ⟨.matrix .two .three, fun l => UInt32.ofNat l.offset⟩
    else if x = "_7" then some (.ofScalar .i32 1)
    else if x = "_8" then some ⟨.vector .f32 .three, fun l => UInt32.ofNat (10 + l.offset)⟩
    else if x = "_9" then some (.ofScalar .i32 2) else none
  words a := if 4 ≤ a ∧ a < 10 then some (a - 4).toUInt32 else none

theorem given_rowMemory :
    rowThenEntry.Given rowTarget rowEmitter rowMemory (fun l => UInt32.ofNat (10 + l.offset)) [1] [1, 2] where
  value := by
    show rowMemory.vars (((rowEmitter.values[8]?).map Prod.fst).getD (valueName 8)) = _
    rw [rowEmitter, Std.HashMap.getElem?_insert_self]
    rfl
  written := by
    refine .cons ?_ .nil
    show (rowMemory.int? (((rowEmitter.values[7]?).map Prod.fst).getD (valueName 7))).bind Memory.natural? = _
    rw [rowEmitter, Std.HashMap.getElem?_insert, if_neg (by decide), Std.HashMap.getElem?_empty]
    decide
  read := by
    refine .cons rfl (.cons ?_ .nil)
    show (rowMemory.int? (((rowEmitter.values[9]?).map Prod.fst).getD (valueName 9))).bind Memory.natural? = _
    rw [rowEmitter, Std.HashMap.getElem?_insert, if_neg (by decide), Std.HashMap.getElem?_empty]
    decide

/-- The second row of a matrix becomes ten, eleven and twelve, of which the last is read. -/
theorem promotionKeeps_rowThenEntry : KeepsMeaning rowThenEntry rowTarget rowEmitter "m" 4 10 11
    ∧ ∃ m₁ m₁' : Memory, run (rowThenEntry.actions 11 (.variable "_5_m") rowTarget rowEmitter)
        rowMemory = some (m₁.setVar "_11" (.ofScalar .f32 12))
      ∧ run (rowThenEntry.actions 11 (.words 4) rowTarget rowEmitter) rowMemory
        = some (m₁'.setVar "_11" (.ofScalar .f32 12)) := by
  have hb : Bound rowTarget rowEmitter := ⟨List.nodup_nil, rfl⟩
  have ho : (operandTy (.stmt 8) rowTarget rowEmitter).1 = .vector .f32 .three := by
    show ((rowEmitter.values[8]?).map Prod.snd).getD .i32 = _
    rw [rowEmitter, Std.HashMap.getElem?_insert_self]
    rfl
  have hkeeps := promotionKeeps rowThenEntry hb named_rowEmitter ho "m" 4 10 11
  refine ⟨hkeeps, ?_⟩
  have hwords : (Home.words 4).Holds (.matrix .two .three) rowMemory fun l => UInt32.ofNat l.offset := by
    intro l
    cases l with
    | entry i j =>
      revert i j
      decide
  obtain ⟨m₁, m₁', result, hrun, hrun', hresult, -⟩ := hkeeps.agree (.row ⟨1, by decide⟩)
    (.entry ⟨1, by decide⟩ ⟨2, by decide⟩) given_rowMemory given_rowMemory rfl hwords
  have htwelve : result = .ofScalar .f32 12 := by
    refine hresult.trans (congrArg (Content.mk _) (funext fun l => ?_))
    exact (Portion.row (r := .two) (c := .three) ⟨1, by decide⟩).overwrite_leaf _ _ (.component ⟨2, by decide⟩)
  rw [htwelve] at hrun hrun'
  exact ⟨m₁, m₁', hrun, hrun'⟩

end ArrayKernel.Shader
