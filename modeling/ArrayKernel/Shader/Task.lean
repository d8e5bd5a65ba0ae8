import ArrayKernel.Settings.Compiler
import ArrayKernel.Shader.Statement

/-!
One shader for every task of a kernel.

Fields are buffers of words. Element `[i₀, …, iₖ]` of a field whose elements have `c` components
starts at word `(i₀ · s₀ + … + iₖ · sₖ) · c`, where `s` are the strides of the shape, row by row.
-/

namespace ArrayKernel.Shader

open IR

def maxWorkgroups : Nat := 65535

/-- The workgroups that cover so many invocations, as far as one dispatch can. Parallel loops stride
over the rest. -/
def workgroupCount (threads workgroupSize : Nat) : Nat :=
  let size := max workgroupSize 1
  max 1 (min maxWorkgroups ((threads + size - 1) / size))

structure TaskShader where
  text : String
  bindings : List Binding
  workgroupSize : Nat
  workgroups : Nat
  /-- The invocations that the dispatch is sized for. -/
  threads : Nat
  parallel : Bool
  deriving DecidableEq, Repr

/-! ## Declarations -/

def floorDivSource : String :=
  "\n".intercalate
    ["fn floor_div_i32(a: i32, b: i32) -> i32 \x7b",
     "    let q = a / b;",
     "    if (a % b != 0i && (a < 0i) != (b < 0i)) \x7b",
     "        return q - 1i;",
     "    \x7d",
     "    return q;",
     "\x7d"]

def randomSource : String :=
  "\n".intercalate
    ["var<private> rng_state: u32;",
     "",
     "fn rng_next() -> f32 \x7b",
     "    rng_state = rng_state * 747796405u + 2891336453u;",
     "    var word = ((rng_state >> ((rng_state >> 28u) + 4u)) ^ rng_state) * 277803737u;",
     "    word = (word >> 22u) ^ word;",
     "    return f32(word >> 8u) * (1.0 / 16777216.0);",
     "\x7d",
     "",
     "fn rng_seed(invocation: u32, seed: u32) \x7b",
     "    rng_state = (invocation * 2654435769u) ^ seed;",
     "    _ = rng_next();",
     "\x7d"]

def bindingType (t : Target) : ResourceKind → String
  | .field id => if t.usage.atomic.contains id then "array<atomic<i32>>" else "array<i32>"
  | .shared => "array<atomic<i32>>"
  | .args | .rets => "array<i32>"
  | .texture id =>
    let rank := ((t.kernel.texture? id).map TextureInfo.rank).getD 2
    s!"texture_{rank}d<f32>"
  | .storageTexture id =>
    let rank := ((t.kernel.texture? id).map TextureInfo.rank).getD 2
    let format := ((t.kernel.texture? id).map fun x => x.format.name).getD "rgba32float"
    s!"texture_storage_{rank}d<{format}, write>"
  | .sampler _ => "sampler"

def bindingDecl (t : Target) (b : Binding) : String :=
  let var := if b.kind.isBuffer then s!"var<storage, {b.access.name}>" else "var"
  let ty := bindingType t b.kind
  s!"@group({b.group}) @binding({b.binding}) {var} {b.name}: {ty};"

def assemble (t : Target) (parallel : Bool) (workgroupSize : Nat) (e : Emitter) : String :=
  let kind := if parallel then "parallel" else "serial"
  let helpers := (if e.floorDiv then ["", floorDivSource] else []) ++ (if e.random then ["", randomSource] else [])
  let lines :=
    [s!"// {t.kernel.name} task {t.index} ({kind})"] ++ e.bindings.map (bindingDecl t) ++ helpers
      ++ ["", s!"@compute @workgroup_size({workgroupSize})",
        "fn main(@builtin(global_invocation_id) gid: vec3<u32>) \x7b"]
      ++ e.lines.toList ++ ["\x7d"]
  "\n".intercalate lines ++ "\n"

/-! ## Bodies -/

/-- Seeds the random numbers of an invocation, if the task draws any. -/
def emitSeed (task : Task) : Emit Unit := do
  let draws := task.ops.any fun
    | .random _ => true
    | _ => false
  if draws then
    modify fun e => { e with random := true }
    let args ← resource .args
    let t ← read
    line s!"rng_seed(gid.x, bitcast<u32>({args}[{t.kernel.paramWords}]) ^ {t.index}u);"

/-- A loop that starts at the invocation and goes in steps of the whole dispatch. -/
def emitParallel (loop : ParallelLoop) (body : List Stmt) (stride : UInt32) : Emit Unit := do
  emitBlock loop.prologue
  let index ← declareIndex loop.index loop.hint
  let b ← operand loop.first
  let e ← operand loop.last
  line s!"for (var {index}: i32 = {b} + i32(gid.x); {index} < {e}; {index} = {index} + {stride.toNat}i) \x7b"
  indented (emitBlock body)
  line "\x7d"

def initialSlots (k : Kernel) : Std.HashMap StmtId Slot :=
  k.shared.foldl (fun m s => m.insert s.slot (.shared s.offset s.ty)) {}

def ofTask (k : Kernel) (settings : CompilerSettings) (index : Nat) (task : Task) : TaskShader :=
  let t : Target := { kernel := k, index, usage := .ofTask task }
  let start : Emitter := { slots := initialSlots k }
  match task.loop with
  | none =>
    let (_, e) := (do emitSeed task; emitBlock task.body : Emit Unit).run t |>.run start
    { text := assemble t false 1 e, bindings := e.bindings, workgroupSize := 1, workgroups := 1, threads := 1,
      parallel := false }
  | some loop =>
    let size := settings.workgroupSize
    let threads := loop.threads.getD settings.dynamicThreads
    let count := workgroupCount threads size
    let stride := UInt32.ofNat (count * size)
    let (_, e) := (do emitSeed task; emitParallel loop task.body stride : Emit Unit).run t |>.run start
    { text := assemble t true size e, bindings := e.bindings, workgroupSize := size, workgroups := count, threads,
      parallel := true }

def ofKernel (k : Kernel) (settings : CompilerSettings) : List TaskShader :=
  k.tasks.mapIdx fun i t => ofTask k settings i t

end ArrayKernel.Shader
