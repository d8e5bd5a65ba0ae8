import ArrayKernel.Settings.Compiler
import ArrayKernel.Text.Blank
import ArrayKernel.Toml.Document

/-!
The settings of the compiler and of the device, as a file and the environment give them.
-/

namespace ArrayKernel

open Number Text

attribute [local instance (high)] instPowNat

inductive PowerPreference where
  | none | lowPower | highPerformance
  deriving DecidableEq, Repr

structure DeviceSettings where
  power : PowerPreference := .highPerformance
  /-- The seed of random numbers; without one, every launch draws its own. -/
  seed : Option Nat := .none
  deriving DecidableEq, Repr, Inhabited

structure Settings where
  compiler : CompilerSettings := {}
  device : DeviceSettings := {}
  deriving DecidableEq, Repr, Inhabited

inductive SettingsError where
  | malformed
  | unreadable (message : String)
  | invalid (message : String)
  | unknownPower (name : String)
  | invalidVariable (key value : String)
  deriving DecidableEq, Repr

namespace SettingsError

/-- The text of an error. What is wrong with a malformed file is not told. -/
def message : SettingsError → String
  | malformed => "TOML parse error"
  | unreadable m => s!"IO error: {m}"
  | invalid m => s!"validation error: {m}"
  | unknownPower n => s!"unknown power preference: {n}"
  | invalidVariable k v => s!"invalid environment variable value for {k}: {v}"

end SettingsError

namespace PowerPreference

def name : PowerPreference → String
  | none => "none"
  | lowPower => "low-power"
  | highPerformance => "high-performance"

def ofName? : String → Option PowerPreference
  | "none" => some none
  | "low-power" => some lowPower
  | "high-performance" => some highPerformance
  | _ => .none

def read (text : String) : Except SettingsError PowerPreference :=
  match text.map Char.toLower with
  | "none" => .ok none
  | "low-power" | "low_power" | "low" => .ok lowPower
  | "high-performance" | "high_performance" | "high" => .ok highPerformance
  | other => .error (.unknownPower other)

/-- The preference of a TOML value: its name, or a table with nothing but an empty entry of its
name. -/
def ofToml? : Toml → Option PowerPreference
  | .string s => ofName? s
  | .table [(k, .table [])] | .table [(k, .array [])] => ofName? k
  | _ => .none

end PowerPreference

namespace Settings

def fileName : String := "tessera.toml"

/-! ## Reading -/

def word? : Toml → Option Nat := Toml.natBelow? (2 ^ (32 : Nat))

def compilerOfToml? (t : Toml) : Option CompilerSettings := do
  let d : CompilerSettings := {}
  match ← t.record? ["workgroup_size", "dynamic_threads", "max_inline_depth", "unroll_limit"] with
  | [size, threads, depth, limit] =>
    return {
      workgroupSize := (← Toml.optional? word? size).getD d.workgroupSize
      dynamicThreads := (← Toml.optional? word? threads).getD d.dynamicThreads
      maxInlineDepth := (← Toml.optional? word? depth).getD d.maxInlineDepth
      unrollLimit := (← Toml.optional? word? limit).getD d.unrollLimit }
  | _ => .none

def deviceOfToml? (t : Toml) : Option DeviceSettings := do
  match ← t.record? ["power_preference", "seed"] with
  | [power, seed] =>
    return {
      power := (← Toml.optional? PowerPreference.ofToml? power).getD .highPerformance
      seed := ← Toml.optional? word? seed }
  | _ => .none

def ofToml? (t : Toml) : Option Settings := do
  match ← t.record? ["compiler", "runtime"] with
  | [compiler, device] =>
    return {
      compiler := (← Toml.optional? compilerOfToml? compiler).getD {}
      device := (← Toml.optional? deviceOfToml? device).getD {} }
  | _ => .none

/-! ## Checks -/

def validate (s : Settings) : Except SettingsError Unit :=
  let c := s.compiler
  if c.workgroupSize = 0 || 256 < c.workgroupSize then
    .error (.invalid s!"compiler.workgroup_size must be in 1..=256, got {c.workgroupSize}")
  else if c.dynamicThreads = 0 then .error (.invalid "compiler.dynamic_threads must be positive")
  else if c.maxInlineDepth = 0 then .error (.invalid "compiler.max_inline_depth must be positive")
  else .ok ()

def read (text : String) : Except SettingsError Settings :=
  match (Toml.read? text).bind ofToml? with
  | .none => .error .malformed
  | some s => do
    s.validate
    return s

/-! ## Environment -/

def readVariable (key value : String) : Except SettingsError Nat :=
  match readNatBelow? (2 ^ (32 : Nat)) (trim value.toList) with
  | some n => .ok n
  | .none => .error (.invalidVariable key value)

def applyEnvironment (env : String → Option String) (s : Settings) :
    Except SettingsError Settings := do
  let size ← match env "TESSERA_WORKGROUP_SIZE" with
    | some v => readVariable "TESSERA_WORKGROUP_SIZE" v
    | .none => pure s.compiler.workgroupSize
  let threads ← match env "TESSERA_DYNAMIC_THREADS" with
    | some v => readVariable "TESSERA_DYNAMIC_THREADS" v
    | .none => pure s.compiler.dynamicThreads
  let power ← match env "TESSERA_POWER_PREFERENCE" with
    | some v => PowerPreference.read v
    | .none => pure s.device.power
  let s : Settings :=
    { compiler := { s.compiler with workgroupSize := size, dynamicThreads := threads }
      device := { s.device with power } }
  s.validate
  return s

/-! ## Writing -/

def toToml (s : Settings) : String :=
  let c := s.compiler
  let seed := match s.device.seed with
    | some n => s!"seed = {n}\n"
    | .none => ""
  s!"[compiler]\nworkgroup_size = {c.workgroupSize}\ndynamic_threads = {c.dynamicThreads}\n"
    ++ s!"max_inline_depth = {c.maxInlineDepth}\nunroll_limit = {c.unrollLimit}\n"
    ++ s!"\n[runtime]\npower_preference = \"{s.device.power.name}\"\n" ++ seed

end Settings

end ArrayKernel
