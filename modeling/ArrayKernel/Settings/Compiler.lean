/-!
The settings of the compiler.
-/

namespace ArrayKernel

structure CompilerSettings where
  /-- Invocations in a workgroup of a parallel task. -/
  workgroupSize : Nat := 128
  /-- Invocations for a parallel loop whose length only the device knows. -/
  dynamicThreads : Nat := 65536
  maxInlineDepth : Nat := 64
  /-- The most iterations of a loop that is unrolled. -/
  unrollLimit : Nat := 4096
  deriving DecidableEq, Repr, Inhabited

end ArrayKernel
