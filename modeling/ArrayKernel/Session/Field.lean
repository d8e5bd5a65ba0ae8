import ArrayKernel.Number.LittleEndian
import ArrayKernel.Scope.Manifest
import ArrayKernel.Session.State

/-!
The fields and textures of a session.
-/

namespace ArrayKernel.Session

open Number

attribute [local instance (high)] instPowNat

/-- A size that is in range. -/
def sized (size : Except SizeOverflow Nat) : SessionM Nat := ofExcept (size.mapError .overflow)

/-! ## Creation -/

def createField (name : String) (shape : List UInt64) (elem : Ty) : SessionM FieldInfo := do
  if shape.isEmpty || shape.contains 0 then
    throw (.invalidShape name "shape must be non-empty with positive extents")
  let info : FieldInfo := { id := (← get).fields.size, name, shape, elem }
  let size ← sized info.bytes
  modifyGet fun s =>
    let (buffer, device) := s.device.createBuffer name size .field
    (info, { s with fields := s.fields.push { info, buffer }, device })

def createTexture (name : String) (dims : List Nat) (format : TexelFormat) (storage : Bool) :
    SessionM TextureInfo := do
  if (dims.length ≠ 2 ∧ dims.length ≠ 3) ∨ dims.contains 0 then
    throw (.invalidShape name s!"textures have 2 or 3 positive dimensions, got {bracketed dims}")
  modifyGet fun s =>
    let info : TextureInfo := { id := s.textures.size, name, dims, format, storage }
    (info, { s with textures := s.textures.push info, device := s.device.createTexture info })

/-! ## Contents -/

/-- The buffer of a field. A field that is not just as it was created here has none. -/
def fieldBuffer (s : Session) (f : FieldInfo) : Except DeviceError BufferId :=
  match s.fields[f.id]? with
  | some stored => if stored.info = f then .ok stored.buffer else .error (.unknownResource f.name)
  | none => .error (.unknownResource f.name)

def writeField (f : FieldInfo) (words : List UInt32) : SessionM Unit := do
  let data := bytesOfWords words
  let size ← sized f.bytes
  if data.size ≠ size then throw (.sizeMismatch f.name size data.size)
  let buffer ← ofExcept ((← get).fieldBuffer f)
  onDevice (·.writeBuffer buffer 0 data)

def fillWord (value : Binary64) : Scalar → UInt32
  | .f32 => value.toBinary32.bits
  | .i32 => (Int32.ofInt (value.truncate (-2 ^ (31 : Nat)) (2 ^ (31 : Nat) - 1))).toUInt32
  | .u32 => UInt32.ofNat (value.truncate 0 (2 ^ (32 : Nat) - 1)).toNat

def cycled {α : Type} (n : Nat) (items : List α) : List α :=
  (List.replicate (n / items.length + 1) items).flatten.take n

def fillField (f : FieldInfo) (value : Binary64) : SessionM Unit := do
  writeField f (cycled (← sized f.words) (f.elem.scalars.map (fillWord value)))

def readField (f : FieldInfo) (width : Nat) : SessionM (List (List UInt8)) := do
  let buffer ← ofExcept ((← get).fieldBuffer f)
  let size ← sized f.bytes
  if width = 0 ∨ size % width ≠ 0 then throw (.sizeMismatch f.name size width)
  let staging ← acquire .staging size
  let outcome ← submit [.copy buffer staging.buffer size]
  onDevice Device.poll
  let bytes ← match outcome with
    | .ok () => readBack staging.buffer size
    | .error e => pure (.error e)
  giveBack .staging staging
  return cut width (← ofExcept bytes)

def readWords (f : FieldInfo) : SessionM (List UInt32) := do
  return (← readField f 4).map wordOfBytes

/-! ## Manifests -/

def forManifest {α : Type} (name : String) (action : SessionM α) :
    StateT Session (Except ManifestError) α := fun s =>
  match action.run s with
  | .ok a s => .ok (a, s)
  | .error (.overflow e) _ => .error (.overflow e)
  | .error e _ => .error (.resource name e.message)

def registry : Registry Session where
  field name shape elem init := forManifest name do
    let f ← createField name shape elem
    match init with
    | some value => fillField f value
    | none => pure ()
    return f
  texture name dims format storage := forManifest name (createTexture name dims format storage)

end ArrayKernel.Session
