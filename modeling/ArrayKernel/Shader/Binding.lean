import ArrayKernel.Number.Reading
import ArrayKernel.Text.Blank

/-!
The resources that a shader is bound to, and the names that shaders give them. A name tells the
resource, so bindings can be recovered from the text of a shader.
-/

namespace ArrayKernel.Shader

open Text Number

attribute [local instance (high)] instPowNat

inductive ResourceKind where
  | field (id : Nat)
  | args
  | rets
  | shared
  | texture (id : Nat)
  | storageTexture (id : Nat)
  | sampler (id : Nat)
  deriving DecidableEq, Repr

namespace ResourceKind

/-- The id that follows a given beginning of a name, up to the next underscore. -/
def idAfter? (start : String) (name : List Char) : Option Nat :=
  (afterStart? start.toList name).bind fun rest =>
    readNatBelow? (2 ^ (32 : Nat)) (rest.takeWhile (· != '_'))

def ofName? (name : String) : Option ResourceKind :=
  let cs := name.toList
  match name with
  | "args" => some args
  | "rets" => some rets
  | "global_tmps" => some shared
  | _ =>
    ((idAfter? "field_" cs).map field).or <|
    ((idAfter? "storage_tex_" cs).map storageTexture).or <|
    ((idAfter? "tex_" cs).map texture).or <|
    (idAfter? "sampler_" cs).map sampler

def isBuffer : ResourceKind → Bool
  | field _ | args | rets | shared => true
  | _ => false

def text : ResourceKind → String
  | field id => s!"field {id}"
  | args => "args"
  | rets => "rets"
  | shared => "global temporaries"
  | texture id => s!"texture {id}"
  | storageTexture id => s!"storage texture {id}"
  | sampler id => s!"sampler {id}"

end ResourceKind

inductive Access where
  | read | write | readWrite
  deriving DecidableEq, Repr

namespace Access

def name : Access → String
  | read => "read"
  | write => "write"
  | readWrite => "read_write"

def ofName? : String → Option Access
  | "read" => some read
  | "write" => some write
  | "read_write" => some readWrite
  | _ => none

end Access

structure Binding where
  group : Nat
  binding : Nat
  kind : ResourceKind
  access : Access
  name : String
  deriving DecidableEq, Repr

inductive Stage where
  | compute | vertex | fragment
  deriving DecidableEq, Repr

def Stage.name : Stage → String
  | compute => "compute"
  | vertex => "vertex"
  | fragment => "fragment"

structure Reflection where
  stage : Stage
  entry : String
  /-- The workgroup size of a compute entry, a missing dimension as one. -/
  workgroupSize : Option (Nat × Nat × Nat)
  bindings : List Binding
  deriving DecidableEq, Repr

inductive ReflectionError where
  | noEntryPoint
  | malformed (offset : Nat) (message : String)
  | unknownResource (name : String)
  deriving DecidableEq, Repr

def ReflectionError.message : ReflectionError → String
  | noEntryPoint => "shader has no @compute, @vertex or @fragment entry point"
  | malformed offset m => s!"malformed binding declaration at byte {offset}: {m}"
  | unknownResource n => s!"binding variable `{n}` does not follow a known resource naming scheme"

end ArrayKernel.Shader
