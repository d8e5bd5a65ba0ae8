import ArrayKernel.Device.Buffer
import ArrayKernel.Device.Error
import ArrayKernel.Scope.Resource
import ArrayKernel.Shader.Reading

/-!
A device that holds buffers as bytes and records dispatches without running them. Every submission
is complete when it returns.

Handles are positions in the order of creation, and nothing is ever removed.
-/

namespace ArrayKernel

open Shader

structure ModuleId where
  index : Nat
  deriving DecidableEq, Repr, Inhabited

structure PipelineId where
  index : Nat
  deriving DecidableEq, Repr

structure BufferId where
  index : Nat
  deriving DecidableEq, Repr

structure ShaderModule where
  label : String
  reflection : Reflection
  deriving DecidableEq, Repr

inductive PipelineKind where
  | compute | render
  deriving DecidableEq, Repr

structure Pipeline where
  kind : PipelineKind
  label : String
  deriving DecidableEq, Repr

structure ComputePipeline where
  label : Option String
  module : ModuleId
  entry : String
  deriving DecidableEq, Repr

structure VertexAttribute where
  format : String
  offset : Nat
  location : Nat
  deriving DecidableEq, Repr

structure VertexLayout where
  stride : Nat
  attributes : List VertexAttribute
  deriving DecidableEq, Repr

/-- A render pipeline: a vertex entry, and perhaps a fragment entry. -/
structure RenderPipeline where
  label : Option String
  vertex : ModuleId
  vertexEntry : String
  vertexBuffers : List VertexLayout
  fragment : Option (ModuleId × String)
  colorTargets : List String
  topology : String
  depthFormat : Option String
  deriving DecidableEq, Repr

structure Dispatch where
  label : String
  workgroups : Nat × Nat × Nat
  bindings : Nat
  deriving DecidableEq, Repr

inductive Bound where
  | buffer (id : BufferId)
  | texture (id : Nat)
  | sampler (id : Nat)
  deriving DecidableEq, Repr

inductive Command where
  | dispatch (label : String) (pipeline : PipelineId) (bindings : List Bound) (workgroups : Nat × Nat × Nat)
  | copy (src dst : BufferId) (size : Nat)
  deriving DecidableEq, Repr

structure Device where
  modules : Array ShaderModule := #[]
  pipelines : Array Pipeline := #[]
  buffers : Array Buffer := #[]
  textures : Array TextureInfo := #[]
  samplers : Array String := #[]
  dispatches : Array Dispatch := #[]
  submissions : Nat := 0
  bytesWritten : Nat := 0
  polls : Nat := 0
  deriving DecidableEq, Repr

namespace Device

def name : String := "headless"

def pipelineCount (d : Device) (kind : PipelineKind) : Nat := d.pipelines.countP (·.kind == kind)

/-! ## Modules and pipelines -/

def createModule (d : Device) (label code : String) : Except DeviceError (ModuleId × Device) :=
  match reflect code with
  | .error e => .error (.shaderRejected label e)
  | .ok reflection => .ok (⟨d.modules.size⟩, { d with modules := d.modules.push { label, reflection } })

def checkEntry (d : Device) (label : String) (id : ModuleId) (entry : String) (stage : Stage) :
    Except DeviceError Unit :=
  match d.modules[id.index]? with
  | none => .error (.entryMissing label "" stage entry)
  | some m =>
    if m.reflection.entry = entry ∧ m.reflection.stage = stage then .ok ()
    else .error (.entryMissing label m.label stage entry)

def addPipeline (d : Device) (kind : PipelineKind) (label : String) : PipelineId × Device :=
  (⟨d.pipelines.size⟩, { d with pipelines := d.pipelines.push { kind, label } })

def createCompute (d : Device) (p : ComputePipeline) :
    Except DeviceError (PipelineId × Device) := do
  let label := p.label.getD ""
  d.checkEntry label p.module p.entry .compute
  return d.addPipeline .compute label

def createRender (d : Device) (p : RenderPipeline) : Except DeviceError (PipelineId × Device) := do
  let label := p.label.getD ""
  d.checkEntry label p.vertex p.vertexEntry .vertex
  match p.fragment with
  | some (m, entry) => d.checkEntry label m entry .fragment
  | none => pure ()
  return d.addPipeline .render label

/-! ## Buffers and textures -/

def createBuffer (d : Device) (label : String) (size : Nat) (usage : Usage) : BufferId × Device :=
  (⟨d.buffers.size⟩, { d with buffers := d.buffers.push (.zeroed label size usage) })

def createTexture (d : Device) (info : TextureInfo) : Device :=
  { d with textures := d.textures.push info, samplers := d.samplers.push info.name }

def buffer (d : Device) (id : BufferId) : Buffer := d.buffers.getD id.index default

/-- Writes the host's bytes. All of them count as written, also those past the end of the buffer. -/
def writeBuffer (d : Device) (id : BufferId) (offset : Nat) (data : Array UInt8) : Device :=
  { d with
    buffers := d.buffers.modify id.index (·.write offset data)
    bytesWritten := d.bytesWritten + data.size }

def readBuffer (d : Device) (id : BufferId) (size : Nat) : Except DeviceError (Array UInt8) :=
  let b := d.buffer id
  if b.usage.isMappable then .ok (b.read size) else .error (.notMappable b.label)

/-! ## Submissions -/

def unusable? (d : Device) (bindings : List Bound) : Option Buffer :=
  bindings.findSome? fun
    | .buffer id => if (d.buffer id).usage.isStorage then none else some (d.buffer id)
    | _ => none

def execute (d : Device) : Command → Except DeviceError Device
  | .dispatch label _ bindings workgroups =>
    match d.unusable? bindings with
    | some b => .error (.notStorage b.label label)
    | none => .ok { d with dispatches := d.dispatches.push { label, workgroups, bindings := bindings.length } }
  | .copy src dst size =>
    .ok { d with buffers := d.buffers.modify dst.index (·.write 0 ((d.buffer src).read size)) }

/-- Runs commands in order up to the first that fails. Those before it keep their effect. -/
def submit (d : Device) : List Command → Except DeviceError Unit × Device
  | [] => (.ok (), { d with submissions := d.submissions + 1 })
  | c :: cs =>
    match d.execute c with
    | .ok d => d.submit cs
    | .error e => (.error e, d)

def poll (d : Device) : Device := { d with polls := d.polls + 1 }

end Device

end ArrayKernel
