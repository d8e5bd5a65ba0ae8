import ArrayKernel.Lowering.Error
import ArrayKernel.Scope.Resource

/-!
What can go wrong between a kernel and a device.
-/

namespace ArrayKernel

inductive DeviceError where
  | shaderRejected (label : String) (reason : Shader.ReflectionError)
  | entryMissing (label module : String) (stage : Shader.Stage) (entry : String)
  /-- A dispatch that binds a buffer which shaders may not use. -/
  | notStorage (buffer dispatch : String)
  | notMappable (buffer : String)
  | notPending
  | compile (e : CompileError)
  | argumentCount (kernel : String) (expected found : Nat)
  | argumentType (name : String) (expected : Ty) (found : String)
  | unknownResource (name : String)
  | sizeMismatch (name : String) (expected found : Nat)
  | invalidShape (name message : String)
  | overflow (e : SizeOverflow)
  deriving DecidableEq, Repr

def DeviceError.message : DeviceError → String
  | shaderRejected label reason => s!"shader module `{label}` rejected: {reason.message}"
  | entryMissing label module stage entry =>
    s!"pipeline `{label}` rejected: module `{module}` has no {stage.name} entry point `{entry}`"
  | notStorage buffer dispatch => s!"submission failed: buffer `{buffer}` bound to `{dispatch}` lacks STORAGE usage"
  | notMappable buffer => s!"readback failed: buffer `{buffer}` is not mappable"
  | notPending => "the device dropped a pending launch"
  | compile e => e.message
  | argumentCount kernel expected found => s!"kernel `{kernel}` takes {expected} argument(s), got {found}"
  | argumentType name expected found => s!"argument `{name}` expects {expected.text}, got {found}"
  | unknownResource name => s!"unknown resource `{name}`"
  | sizeMismatch name expected found => s!"`{name}` holds {expected} bytes, got {found}"
  | invalidShape name m => s!"`{name}`: {m}"
  | overflow e => e.message

end ArrayKernel
