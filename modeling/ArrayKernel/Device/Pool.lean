import ArrayKernel.Device.Recorder

/-!
Buffers that are used again. A request takes the first free buffer that is large enough; a new
buffer is made only when there is none, and has just the requested size.
-/

namespace ArrayKernel

structure PooledBuffer where
  buffer : BufferId
  capacity : Nat
  deriving DecidableEq, Repr

structure Pool where
  usage : Usage
  free : List PooledBuffer := []
  allocations : Nat := 0
  deriving DecidableEq, Repr

namespace Pool

def leastSize : Nat := 4

/-- The first buffer of at least a given size, and the others in their order. -/
def takeFirst? (size : Nat) : List PooledBuffer → Option (PooledBuffer × List PooledBuffer)
  | [] => none
  | b :: rest =>
    if size ≤ b.capacity then some (b, rest)
    else (takeFirst? size rest).map fun (x, others) => (x, b :: others)

def get (p : Pool) (d : Device) (size : Nat) : PooledBuffer × Pool × Device :=
  let size := max size leastSize
  match takeFirst? size p.free with
  | some (b, free) => (b, { p with free }, d)
  | none =>
    let count := p.allocations + 1
    let (id, d) := d.createBuffer s!"tessera_pool_{count}" size p.usage
    ({ buffer := id, capacity := size }, { p with allocations := count }, d)

def giveBack (p : Pool) (b : PooledBuffer) : Pool := { p with free := p.free ++ [b] }

end Pool

structure Pools where
  field : Pool := { usage := .field }
  args : Pool := { usage := .args }
  rets : Pool := { usage := .rets }
  staging : Pool := { usage := .staging }
  deriving DecidableEq, Repr

namespace Pools

def get (ps : Pools) : Usage → Pool
  | .field => ps.field
  | .args => ps.args
  | .rets => ps.rets
  | .staging => ps.staging

def set (ps : Pools) (usage : Usage) (p : Pool) : Pools :=
  match usage with
  | .field => { ps with field := p }
  | .args => { ps with args := p }
  | .rets => { ps with rets := p }
  | .staging => { ps with staging := p }

theorem get_set (ps : Pools) (u v : Usage) (p : Pool) :
    (ps.set u p).get v = if v = u then p else ps.get v := by
  cases u <;> cases v <;> rfl

end Pools

end ArrayKernel
