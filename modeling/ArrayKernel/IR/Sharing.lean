import ArrayKernel.IR.Stmt

/-!
Slots that several tasks use. A local slot lives in one dispatch only, so a slot that another task
reads or writes is given a place in a buffer. Places are handed out in order of slot id, one after
the other.
-/

namespace ArrayKernel.IR

namespace Op

def slot? : Op → Option StmtId
  | localLoad s _ _ | localStore s _ _ => some s
  | atomic (.local s _) _ _ _ => some s
  | _ => none

end Op

namespace Stmt

def declared? : Stmt → Option (StmtId × Ty)
  | op i (.alloca ty _) => some (i, ty)
  | _ => none

end Stmt

def Task.used (t : Task) : List StmtId := t.ops.filterMap Op.slot?

def Task.declared (t : Task) : List (StmtId × Ty) := t.statements.filterMap Stmt.declared?

def insertSlot (x : StmtId × Ty) : List (StmtId × Ty) → List (StmtId × Ty)
  | [] => [x]
  | y :: ys => if x.1 ≤ y.1 then x :: y :: ys else y :: insertSlot x ys

/-- Gives each slot the words after those of the slots before it. -/
def placeSlots (offset : Nat) : List (StmtId × Ty) → List SharedSlot
  | [] => []
  | (slot, ty) :: rest => { slot, offset, ty } :: placeSlots (offset + ty.size) rest

/-- The slots that a task makes and another task uses, sorted by id. -/
def sharedSlots (tasks : List Task) : List (StmtId × Ty) :=
  let indexed := tasks.zipIdx
  let shared := indexed.flatMap fun (t, home) =>
    t.declared.filter fun (slot, _) =>
      indexed.any fun (u, other) => other != home && u.used.contains slot
  shared.foldr insertSlot []

def Kernel.shareSlots (k : Kernel) : Kernel :=
  { k with shared := placeSlots 0 (sharedSlots k.tasks) }

end ArrayKernel.IR
