/-!
Buffers of bytes on a device.
-/

namespace ArrayKernel

inductive Usage where
  /-- The words of a field: shaders use it, and it is copied from and to. -/
  | field
  | args
  | rets
  | staging
  deriving DecidableEq, Repr, Inhabited

namespace Usage

def isStorage : Usage → Bool
  | field | args | rets => true
  | staging => false

def isMappable : Usage → Bool
  | staging => true
  | field | args | rets => false

end Usage

structure Buffer where
  label : String
  usage : Usage
  bytes : Array UInt8
  deriving DecidableEq, Repr, Inhabited

namespace Buffer

def zeroed (label : String) (size : Nat) (usage : Usage) : Buffer :=
  { label, usage, bytes := Array.replicate size 0 }

def size (b : Buffer) : Nat := b.bytes.size

/-- Writes from an offset on. What would pass the end is left out. -/
def write (b : Buffer) (offset : Nat) (data : Array UInt8) : Buffer :=
  let start := min offset b.size
  let stop := min (start + data.size) b.size
  { b with bytes := b.bytes.extract 0 start ++ data.extract 0 (stop - start) ++ b.bytes.extract stop b.size }

def read (b : Buffer) (size : Nat) : Array UInt8 := b.bytes.extract 0 size

@[simp] theorem size_zeroed (label : String) (size : Nat) (usage : Usage) :
    (zeroed label size usage).size = size := by
  simp [zeroed, Buffer.size]

@[simp] theorem size_write (b : Buffer) (offset : Nat) (data : Array UInt8) :
    (b.write offset data).size = b.size := by
  simp only [write, size, Array.size_append, Array.size_extract]
  omega

@[simp] theorem usage_write (b : Buffer) (offset : Nat) (data : Array UInt8) :
    (b.write offset data).usage = b.usage := rfl

theorem bytes_write_zero {b : Buffer} {data : Array UInt8} (h : data.size = b.size) :
    (b.write 0 data).bytes = data := by
  simp [write, h, size]

end Buffer

end ArrayKernel
