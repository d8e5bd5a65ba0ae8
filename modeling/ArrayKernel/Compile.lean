import ArrayKernel.Digest.Blake3
import ArrayKernel.IR.Listing
import ArrayKernel.Lowering.Kernel
import ArrayKernel.Shader.Reading
import ArrayKernel.Shader.Task

/-!
From the text of a kernel to its shaders.
-/

namespace ArrayKernel

open Surface Shader

structure CompiledTask where
  shader : TaskShader
  fingerprint : String
  reflection : Reflection
  deriving DecidableEq, Repr

structure CompiledKernel where
  kernel : IR.Kernel
  tasks : List CompiledTask

namespace CompiledTask

def ofShader (s : TaskShader) : Except CompileError CompiledTask :=
  match reflect s.text with
  | .ok reflection => .ok { shader := s, fingerprint := Digest.Blake3.fingerprint s.text, reflection }
  | .error e => .error (.reflection e)

end CompiledTask

def kernelFile : Nat := 0

/-- The shaders of a kernel, with values for its template parameters. -/
def compile (source : String) (scope : Scope) (templates : List (String × Value))
    (settings : CompilerSettings) : Except CompileError CompiledKernel :=
  match Routine.parse kernelFile source with
  | .error cs => .error (.parse (cs.map Complaint.diagnostic))
  | .ok routine => do
    let kernel ← Lowering.lower routine scope templates settings
    let tasks ← (Shader.ofKernel kernel settings).mapM CompiledTask.ofShader
    return { kernel, tasks }

/-- The shaders one after another, each after a line on its dispatch. -/
def CompiledKernel.text (k : CompiledKernel) : String :=
  String.join (k.tasks.mapIdx fun i t =>
    s!"// task {i} [{t.fingerprint}] {t.shader.workgroups} x {t.shader.workgroupSize} threads\n" ++ t.shader.text
      ++ "\n")

end ArrayKernel
