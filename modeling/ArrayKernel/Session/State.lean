import ArrayKernel.Compile
import ArrayKernel.Device.Cache
import ArrayKernel.Device.Pool
import ArrayKernel.Scope.Value
import ArrayKernel.Settings.Config

/-!
A session on a device: the resources that kernels touch, the pipelines and buffers that are used
again, and the launches that are pending.
-/

namespace ArrayKernel

structure StoredField where
  info : FieldInfo
  buffer : BufferId
  deriving DecidableEq, Repr

structure LaunchBuffers where
  args : Option PooledBuffer := none
  rets : Option PooledBuffer := none
  staging : Option PooledBuffer := none
  /-- The slots that tasks share. Their pool is that of the arguments. -/
  shared : Option PooledBuffer := none
  deriving DecidableEq, Repr

/-- The buffers with their pools, in the order in which they go back. -/
def LaunchBuffers.toList (b : LaunchBuffers) : List (Usage × PooledBuffer) :=
  [(.args, b.args), (.rets, b.rets), (.staging, b.staging), (.args, b.shared)].filterMap fun (u, x) => x.map (u, ·)

structure Launch where
  outcome : Except DeviceError Unit
  ret : Option Ty
  retBytes : Nat
  buffers : LaunchBuffers

structure LaunchId where
  index : Nat
  deriving DecidableEq, Repr

structure Session where
  settings : Settings := {}
  device : Device := {}
  cache : Cache := {}
  pools : Pools := {}
  fields : Array StoredField := #[]
  textures : Array TextureInfo := #[]
  /-- The launches so far, in the 32 bits that seeds count in. -/
  launches : UInt32 := 0
  kernels : Nat := 0
  submitted : Nat := 0
  /-- The launches that nobody has waited for or given up. -/
  pending : List (LaunchId × Launch) := []
  /-- The time, in nanoseconds, from which launches without a fixed seed draw theirs. -/
  clock : Nat := 0

/-- What runs in a session. A failure keeps the effects before it. -/
abbrev SessionM := EStateM DeviceError Session

namespace Session

def onDevice (f : Device → Device) : SessionM Unit :=
  modify fun s => { s with device := f s.device }

/-! ## Buffers on loan -/

def acquire (usage : Usage) (size : Nat) : SessionM PooledBuffer :=
  modifyGet fun s =>
    let (b, pool, device) := (s.pools.get usage).get s.device size
    (b, { s with pools := s.pools.set usage pool, device })

def giveBack (usage : Usage) (b : PooledBuffer) : SessionM Unit :=
  modify fun s => { s with pools := s.pools.set usage ((s.pools.get usage).giveBack b) }

def release (buffers : LaunchBuffers) : SessionM Unit :=
  buffers.toList.forM fun (usage, b) => giveBack usage b

/-! ## Submissions -/

def submit (commands : List Command) : SessionM (Except DeviceError Unit) :=
  modifyGet fun s =>
    let (outcome, device) := s.device.submit commands
    (outcome, { s with device })

def readBack (id : BufferId) (size : Nat) : SessionM (Except DeviceError (Array UInt8)) := do
  return (← get).device.readBuffer id size

end Session

end ArrayKernel
