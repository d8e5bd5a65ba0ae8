import ArrayKernel.Session.Field
import ArrayKernel.Session.Kernel

/-!
Launches: all tasks of a kernel in one submission, and what the kernel gives back.
-/

namespace ArrayKernel

open Number Shader

/-! ## Arguments -/

def encodeArgument (param : IR.Param) (arg : Value) : Except DeviceError (List UInt32) :=
  let mismatch := DeviceError.argumentType param.name param.ty arg.text
  let components? := match arg with
    | .number l => some [l]
    | .array ls _ => some ls
    | _ => none
  match components? with
  | none => .error mismatch
  | some components =>
    if components.length = param.ty.scalars.length then
      .ok (components.zipWith (fun l s => (l.cast s).bits) param.ty.scalars)
    else .error mismatch

def encodeArguments (k : IR.Kernel) (args : List Value) : Except DeviceError (List UInt32) :=
  if k.params.length = args.length then
    ((k.params.zip args).mapM fun (p, v) => encodeArgument p v).map List.flatten
  else .error (.argumentCount k.name k.params.length args.length)

namespace Session

/-- The seed of the next launch. A fixed seed counts up with the launches; any other is drawn from
the clock. -/
def seed (s : Session) : UInt32 :=
  match s.settings.device.seed with
  | some n => UInt32.ofNat n + s.launches
  | none =>
    let drawn := s.clock ^^^ s.launches.toNat
    wordOfBytes ((Digest.Blake3.hash ((List.range 16).map fun i => UInt8.ofNat (drawn >>> (8 * i)))).take 4)

def argumentWords (s : Session) (k : IR.Kernel) (args : List Value) :
    Except DeviceError (List UInt32) := do
  let words ← encodeArguments k args
  return if k.usesRandom then words ++ [s.seed] else words

/-! ## Buffers and bindings -/

/-- A buffer of the pool for arguments that holds the given words. -/
def acquireWith (words : List UInt32) : SessionM PooledBuffer := do
  let b ← acquire .args (words.length * 4)
  onDevice (·.writeBuffer b.buffer 0 (bytesOfWords words))
  return b

def acquireAll (k : IR.Kernel) (words : List UInt32) : SessionM LaunchBuffers := do
  let args ← if words.isEmpty then pure none else some <$> acquireWith words
  let retBytes := k.retWords * 4
  let rets ← if retBytes = 0 then pure none else some <$> acquire .rets retBytes
  let staging ← if retBytes = 0 then pure none else some <$> acquire .staging retBytes
  let shared ← if k.sharedWords = 0 then pure none else some <$> acquireWith (List.replicate k.sharedWords 0)
  return { args, rets, staging, shared }

def bindPooled (name : String) : Option PooledBuffer → Except DeviceError Bound
  | some b => .ok (.buffer b.buffer)
  | none => .error (.unknownResource name)

def resource (s : Session) (k : IR.Kernel) (buffers : LaunchBuffers) :
    ResourceKind → Except DeviceError Bound
  | .field id =>
    match k.field? id with
    | some f => (s.fieldBuffer f).map .buffer
    | none => .error (.unknownResource s!"field #{id}")
  | .args => bindPooled "args" buffers.args
  | .rets => bindPooled "rets" buffers.rets
  | .shared => bindPooled "global_tmps" buffers.shared
  | .texture id | .storageTexture id =>
    if id < s.textures.size then .ok (.texture id) else .error (.unknownResource s!"texture #{id}")
  | .sampler id =>
    if id < s.textures.size then .ok (.sampler id) else .error (.unknownResource s!"sampler #{id}")

def dispatchOf (s : Session) (k : IR.Kernel) (buffers : LaunchBuffers) (task : CompiledTask)
    (pipeline : PipelineId) : Except DeviceError Command := do
  let bound ← task.shader.bindings.mapM fun b => s.resource k buffers b.kind
  return .dispatch s!"{k.name}_{task.fingerprint}" pipeline bound (task.shader.workgroups, 1, 1)

/-- The commands of a launch: the tasks in order, then a copy of the result. -/
def commandsOf (s : Session) (k : SessionKernel) (buffers : LaunchBuffers) :
    Except DeviceError (List Command) := do
  let ir := k.compiled.kernel
  let dispatches ← (k.compiled.tasks.zip k.pipelines).mapM fun (task, p) => s.dispatchOf ir buffers task p
  match buffers.rets, buffers.staging with
  | some rets, some staging => return dispatches ++ [.copy rets.buffer staging.buffer (ir.retWords * 4)]
  | _, _ => return dispatches

/-! ## Launches -/

/-- Submits a kernel. A launch that cannot be submitted gives its buffers back. -/
def launch (k : SessionKernel) (args : List Value) : SessionM LaunchId := do
  let ir := k.compiled.kernel
  let words ← ofExcept ((← get).argumentWords ir args)
  modify fun s => { s with launches := s.launches + 1 }
  let buffers ← acquireAll ir words
  match (← get).commandsOf k buffers with
  | .error e =>
    release buffers
    throw e
  | .ok commands =>
    let outcome ← submit commands
    modifyGet fun s =>
      let id : LaunchId := ⟨s.submitted⟩
      let launch : Launch := { outcome, ret := ir.ret, retBytes := ir.retWords * 4, buffers }
      (id, { s with submitted := s.submitted + 1, pending := (id, launch) :: s.pending })

def takePending (id : LaunchId) : SessionM Launch := do
  match (← get).pending.lookup id with
  | none => throw .notPending
  | some launch =>
    modify fun s => { s with pending := s.pending.filter (·.1 != id) }
    return launch

/-- The result that the buffers of a launch hold: none for a kernel that returns nothing. -/
def result (s : Session) (launch : Launch) : Except DeviceError (List Literal) := do
  launch.outcome
  match launch.ret, launch.buffers.staging with
  | some ty, some staging =>
    let bytes ← s.device.readBuffer staging.buffer launch.retBytes
    return (wordsOfBytes bytes).zipWith Literal.ofBits ty.scalars
  | _, _ => return []

def wait (id : LaunchId) : SessionM (List Literal) := do
  let launch ← takePending id
  -- once to drive the queue, once to ask for the outcome
  onDevice Device.poll
  onDevice Device.poll
  let result := (← get).result launch
  release launch.buffers
  ofExcept result

/-- Gives a launch up. Its buffers can be used again at once, since submissions run in order. -/
def discard (id : LaunchId) : SessionM Unit := do
  let launch ← takePending id
  release launch.buffers

end Session

end ArrayKernel
