import ArrayKernel.Device.Recorder
import ArrayKernel.Digest.Blake3

/-!
Modules and pipelines that are made once. A module is found by its text, a pipeline by its
description, in which modules count by identity. Nothing is remembered of a failure.
-/

namespace ArrayKernel

structure Cache where
  modules : List (String × ModuleId) := []
  compute : List (ComputePipeline × PipelineId) := []
  render : List (RenderPipeline × PipelineId) := []
  hits : Nat := 0
  misses : Nat := 0
  deriving DecidableEq, Repr

namespace Cache

def size (c : Cache) : Nat := c.modules.length + c.compute.length + c.render.length

def isEmpty (c : Cache) : Bool := c.size == 0

def hit (c : Cache) : Cache := { c with hits := c.hits + 1 }

def module (c : Cache) (d : Device) (code : String) :
    Except DeviceError (ModuleId × Cache × Device) :=
  match c.modules.lookup code with
  | some id => .ok (id, c.hit, d)
  | none => do
    let (id, d) ← d.createModule ("tessera_" ++ Digest.Blake3.fingerprint code) code
    return (id, { c with modules := (code, id) :: c.modules, misses := c.misses + 1 }, d)

def computePipeline (c : Cache) (d : Device) (p : ComputePipeline) :
    Except DeviceError (PipelineId × Cache × Device) :=
  match c.compute.lookup p with
  | some id => .ok (id, c.hit, d)
  | none => do
    let (id, d) ← d.createCompute p
    return (id, { c with compute := (p, id) :: c.compute, misses := c.misses + 1 }, d)

def renderPipeline (c : Cache) (d : Device) (p : RenderPipeline) :
    Except DeviceError (PipelineId × Cache × Device) :=
  match c.render.lookup p with
  | some id => .ok (id, c.hit, d)
  | none => do
    let (id, d) ← d.createRender p
    return (id, { c with render := (p, id) :: c.render, misses := c.misses + 1 }, d)

end Cache

end ArrayKernel
