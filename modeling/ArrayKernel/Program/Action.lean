import ArrayKernel.Program.CommandLine
import ArrayKernel.Program.Host
import ArrayKernel.Program.Path
import ArrayKernel.Session.Launch

/-!
What the subcommands do.
-/

namespace ArrayKernel.Program

open Number Text

attribute [local instance (high)] instPowNat

variable {m : Type → Type} [Monad m]

abbrev ActionM (m : Type → Type) := ExceptT (List String) m

def failWith {α : Type} (message : String) : ActionM m α := throw ["error: " ++ message]

def orFail {ε α : Type} (message : ε → String) : Except ε α → ActionM m α
  | .ok a => pure a
  | .error e => failWith (message e)

/-! ## Inputs -/

def readSource (host : Host m) (path : String) : ActionM m String := do
  orFail (fun e => s!"cannot read '{path}': {e.message}") (← host.read path)

/-- The nearest settings file: in the directory of the input or above it. -/
def findSettings (host : Host m) : List (List String) → m (Option String)
  | [] => pure none
  | place :: above => do
    let path := Path.join (Path.ofSteps place) Settings.fileName
    if ← host.isFile path then return some path else findSettings host above

/-- The settings for an input. Variables of the environment win over a file. -/
def loadSettings (host : Host m) (input : String) : ActionM m Settings := do
  let steps := Path.steps input
  let start := if ← host.isFile input then steps.dropLast else steps
  let found : Option String ← ExceptT.lift (findSettings host (Path.upward start))
  let settings ← match found with
    | none => pure {}
    | some path => do
      let text ← orFail (fun e => SettingsError.message (.unreadable e.message)) (← host.read path)
      orFail SettingsError.message (Settings.read text)
  let given ← settingVariables.mapM fun name => return (name, ← host.environment name)
  orFail SettingsError.message (settings.applyEnvironment fun name => (given.lookup name).join)
where
  settingVariables : List String :=
    ["TESSERA_WORKGROUP_SIZE", "TESSERA_DYNAMIC_THREADS", "TESSERA_POWER_PREFERENCE"]

def loadManifest (host : Host m) : Option String → ActionM m Manifest
  | none => pure {}
  | some path => do
    let text ← orFail (fun e => ManifestError.message (.unreadable path e.message)) (← host.read path)
    orFail ManifestError.message (Manifest.read text)

def compileReport (path source : String) (e : CompileError) : List String :=
  e.diagnostics.flatMap (fun d => [d.header, " at " ++ d.location path source] ++ d.remarks.map (" " ++ ·))
    ++ [s!"error: could not compile '{path}'"]

/-! ## Compilation -/

def writeShaders (host : Host m) (input directory : String) (k : CompiledKernel) :
    ActionM m Unit := do
  orFail (fun e => s!"cannot create '{directory}': {e.message}") (← host.createDirectories directory)
  let name := (Path.stem? input).getD "kernel"
  for (task, i) in k.tasks.zipIdx do
    let path := Path.join directory s!"{name}.{i}.{task.fingerprint}.wgsl"
    orFail (fun e => s!"cannot write '{path}': {e.message}") (← host.write path task.shader.text)
    let mode := if task.shader.parallel then "parallel" else "serial"
    host.report s!"  {path} ({mode}, {task.shader.workgroups} workgroup(s) of {task.shader.workgroupSize})"
  host.report s!"Compiled {input} -> {k.tasks.length} task(s) in {directory}"

def build (host : Host m) (input : String) (given : Given) : ActionM m Unit := do
  let settings ← loadSettings host input
  let source ← readSource host input
  let manifest ← loadManifest host (given.value? .scope)
  let scope ← orFail ManifestError.message ((manifest.build Registry.counting).run' {})
  match compile source scope [] settings.compiler with
  | .error e => throw (compileReport input source e)
  | .ok k =>
    if given.has .ir then host.print (k.kernel.listing ++ "\n")
    match given.value? .out with
    | none => host.print k.text
    | some directory => writeShaders host input directory k

/-! ## Reflection -/

def padded (width : Nat) (s : String) : String :=
  s ++ String.ofList (List.replicate (width - s.length) ' ')

def describe (r : Shader.Reflection) : List String :=
  let size := match r.workgroupSize with
    | some (x, y, z) => s!" @workgroup_size({x}, {y}, {z})"
    | none => ""
  s!"{r.stage.name} entry `{r.entry}`{size}" ::
    if r.bindings.isEmpty then ["  (no bindings)"]
    else r.bindings.map fun b =>
      s!"  @group({b.group}) @binding({b.binding}) " ++ padded 20 b.name ++ " " ++ padded 12 b.access.name ++ " "
        ++ b.kind.text

def reflect (host : Host m) (input : String) : ActionM m Unit := do
  let source ← readSource host input
  let r ← orFail (fun e => s!"{input}: {e.message}") (Shader.reflect source)
  host.print (String.join ((describe r).map (· ++ "\n")))

/-! ## Launches -/

/-- An argument of a kernel: a whole number, any other number, or numbers with commas between them.
-/
def readArgument (text : String) : Except String Value :=
  let number? (cs : List Char) : Option Binary32 := (Decimal.read? cs).map Decimal.toBinary32
  match (text.splitOn ",").map fun part => trim part.toList with
  | [part] =>
    match readInt? (-2 ^ (31 : Nat)) (2 ^ (31 : Nat) - 1) part with
    | some v => .ok (.number (.i32 (.ofInt v)))
    | none =>
      match number? part with
      | some v => .ok (.number (.f32 v))
      | none => .error s!"invalid argument `{text}`"
  | parts =>
    match parts.mapM number? with
    | none => .error s!"invalid vector argument `{text}`"
    | some vs => (Value.ofVector vs).mapError TypeError.message

def numbersText : List Literal → String
  | [l] => l.text
  | ls => "[" ++ ", ".intercalate (ls.map Literal.text) ++ "]"

def fieldText (name : String) (f : FieldInfo) (words : List UInt32) : String :=
  name ++ " = " ++ numbersText (words.zipWith Literal.ofBits (Session.cycled words.length f.elem.scalars))

/-- Goes on with a session after what was done in it, or fails with its error. -/
def inSession {α : Type} (s : Session) (action : SessionM α) (report : DeviceError → List String) :
    ActionM m (α × Session) :=
  match action.run s with
  | .ok a s => pure (a, s)
  | .error e _ => throw (report e)

def deviceReport (e : DeviceError) : List String := ["error: " ++ e.message]

def showFields (host : Host m) (scope : Scope) : Session → List String → ActionM m Unit
  | _, [] => pure ()
  | s, name :: rest => do
    match scope.get? name with
    | some (.field f) =>
      let (words, s) ← inSession s (Session.readWords f) deviceReport
      host.print (fieldText name f words ++ "\n")
      showFields host scope s rest
    | _ => failWith s!"`{name}` is not a field in scope"

def runHeadless (host : Host m) (input : String) (given : Given) (settings : Settings) :
    ActionM m Unit := do
  let source ← readSource host input
  let manifest ← loadManifest host (given.value? .scope)
  let session : Session := { settings, clock := ← host.clock }
  let (scope, session) ← orFail ManifestError.message ((manifest.build Session.registry).run session)
  let args ← orFail id ((given.values .arg).mapM readArgument)
  let (kernel, session) ← inSession session (Session.kernel source scope []) fun
    | .compile e => compileReport input source e
    | e => deviceReport e
  host.report s!"Running {input} on {Device.name} ({kernel.compiled.tasks.length} task(s))"
  let (ret, session) ← inSession session (do Session.wait (← Session.launch kernel args)) deviceReport
  unless ret.isEmpty do host.print (numbersText ret ++ "\n")
  showFields host scope session (given.values .read)

/-- Compiles and launches a kernel. The recording device is the only one here. -/
def run (host : Host m) (input : String) (given : Given) : ActionM m Unit := do
  let settings ← loadSettings host input
  if given.has .headless then runHeadless host input given settings
  else failWith "no GPU adapter available (try --headless)"

/-! ## The program -/

def Request.perform (host : Host m) (r : Request) : ActionM m Unit :=
  match r.subcommand with
  | .build => build host r.input r.given
  | .reflect => reflect host r.input
  | .run => run host r.input r.given

def versionText : String := "tessera 0.1.0\n"

def usageText : String :=
  "Usage: tessera [-v] build <INPUT> [--scope <FILE>] [-o <DIR>] [--ir]\n"
    ++ "       tessera [-v] reflect <INPUT>\n"
    ++ "       tessera [-v] run <INPUT> [--scope <FILE>] [--arg <VALUE>]... [--read <FIELD>]... [--headless]\n"

def execute (host : Host m) (args : List String) : m UInt32 := do
  match Request.read {} args with
  | .error .version => host.print versionText; return 0
  | .error .help => host.print usageText; return 0
  | .error .misuse => host.report usageText; return 2
  | .ok request =>
    match ← (request.perform host).run with
    | .ok () => return 0
    | .error lines =>
      lines.forM host.report
      return 1

end ArrayKernel.Program
