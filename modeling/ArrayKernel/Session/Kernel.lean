import ArrayKernel.Scope.Notation
import ArrayKernel.Session.State

/-!
Kernels of a session, with their pipelines.
-/

namespace ArrayKernel

structure SessionKernel where
  /-- The position among the kernels of the session. -/
  serial : Nat
  compiled : CompiledKernel
  pipelines : List PipelineId

/-- A kernel with template parameters. It is compiled once for every binding of them. -/
structure KernelTemplate where
  source : String
  scope : Scope
  /-- The kernels so far, by the key of their bindings. -/
  instances : List (String × SessionKernel) := []

namespace Session

def pipelineOf (kernel : String) (index : Nat) (task : CompiledTask) : SessionM PipelineId := do
  let s ← get
  let (module, cache, device) ← ofExcept (s.cache.module s.device task.shader.text)
  set { s with cache, device }
  let pipeline : ComputePipeline :=
    { label := s!"{kernel}_{index}_{task.fingerprint}", module, entry := task.reflection.entry }
  let s ← get
  let (id, cache, device) ← ofExcept (s.cache.computePipeline s.device pipeline)
  set { s with cache, device }
  return id

def kernel (source : String) (scope : Scope) (templates : List (String × Value)) :
    SessionM SessionKernel := do
  match compile source scope templates (← get).settings.compiler with
  | .error e => throw (.compile e)
  | .ok compiled =>
    let pipelines ← (compiled.tasks.zipIdx).mapM fun (task, i) => pipelineOf compiled.kernel.name i task
    modifyGet fun s => ({ serial := s.kernels, compiled, pipelines }, { s with kernels := s.kernels + 1 })

/-- The kernel of a template for a binding of its parameters, and the template that knows it. -/
def instantiate (t : KernelTemplate) (templates : List (String × Value)) :
    SessionM (SessionKernel × KernelTemplate) := do
  let key := templateKey templates
  match t.instances.lookup key with
  | some k => return (k, t)
  | none =>
    let k ← kernel t.source t.scope templates
    return (k, { t with instances := (key, k) :: t.instances })

end Session

end ArrayKernel
