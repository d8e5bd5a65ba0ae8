import ArrayKernel.Scope.Bindings
import ArrayKernel.Surface.Grammar
import ArrayKernel.Text.Blank
import ArrayKernel.Toml.Document
import ArrayKernel.Toml.Settled
import ArrayKernel.Typing.Reading

/-!
Manifests: the constants, fields, textures and functions that a host gives to kernels, declared in
TOML.
-/

namespace ArrayKernel

open Number Surface Text

attribute [local instance (high)] instPowNat

structure FieldDecl where
  shape : List UInt64
  elem : Option String
  members : List String
  init : Option Binary64

structure TextureDecl where
  dims : List Nat
  format : String
  storage : Bool

structure Manifest where
  constants : List (String × Toml) := []
  fields : List (String × FieldDecl) := []
  textures : List (String × TextureDecl) := []
  functions : List (String × String) := []

inductive ManifestError where
  | unreadable (path message : String)
  | malformed
  | constant (name message : String)
  | field (name message : String)
  | texture (name message : String)
  | function (name message : String)
  | resource (name message : String)
  | overflow (e : SizeOverflow)
  deriving DecidableEq, Repr

/-- The text of an error. What is wrong with a malformed file is not told. -/
def ManifestError.message : ManifestError → String
  | unreadable p m => s!"cannot read '{p}': {m}"
  | malformed => "TOML parse error"
  | constant n m => s!"constant `{n}`: {m}"
  | field n m => s!"field `{n}`: {m}"
  | texture n m => s!"texture `{n}`: {m}"
  | function n m => s!"function `{n}` does not parse: {m}"
  | resource n m => s!"cannot create `{n}`: {m}"
  | overflow e => e.message

/-! ## Reading -/

def FieldDecl.ofToml? (t : Toml) : Option FieldDecl := do
  match ← t.record? ["shape", "elem", "members", "init"] with
  | [some shape, elem, members, init] =>
    return {
      shape := (← shape.list? (Toml.natBelow? (2 ^ (64 : Nat)))).map UInt64.ofNat
      elem := ← Toml.optional? Toml.string? elem
      members := (← Toml.optional? (Toml.list? Toml.string?) members).getD []
      init := ← Toml.optional? Toml.float? init }
  | _ => none

def TextureDecl.ofToml? (t : Toml) : Option TextureDecl := do
  match ← t.record? ["dims", "format", "storage"] with
  | [some dims, format, storage] =>
    return {
      dims := ← dims.list? (Toml.natBelow? (2 ^ (32 : Nat)))
      format := (← Toml.optional? Toml.string? format).getD "rgba8unorm"
      storage := (← Toml.optional? Toml.bool? storage).getD false }
  | _ => none

namespace Manifest

def ofToml? (t : Toml) : Option Manifest := do
  match ← t.record? ["constants", "fields", "textures", "functions"] with
  | [constants, fields, textures, functions] =>
    return {
      constants := (← Toml.optional? (Toml.map? Toml.settle?) constants).getD []
      fields := (← Toml.optional? (Toml.map? FieldDecl.ofToml?) fields).getD []
      textures := (← Toml.optional? (Toml.map? TextureDecl.ofToml?) textures).getD []
      functions := (← Toml.optional? (Toml.map? Toml.string?) functions).getD [] }
  | _ => none

def read (text : String) : Except ManifestError Manifest :=
  match (Toml.read? text).bind ofToml? with
  | some m => .ok m
  | none => .error .malformed

end Manifest

/-! ## Constants -/

def Literal.ofToml? : Toml → Option Literal
  | .integer v => if -2 ^ (31 : Nat) ≤ v ∧ v < 2 ^ (31 : Nat) then some (.i32 (.ofInt v)) else none
  | .float v => some (.f32 v.toBinary32)
  | .boolean b => some (.ofBool b)
  | _ => none

def Toml.rows? (items : List Toml) : Option (List (List Toml)) :=
  items.mapM fun
    | .array row => some row
    | _ => none

def matrixEntries (cols : Nat) : List (List Toml) → Except String (List Literal)
  | [] => .ok []
  | row :: rows =>
    if row.length ≠ cols then .error "matrix rows differ in length"
    else match row.mapM Literal.ofToml? with
      | none => .error "matrix entries must be numbers"
      | some ls => (matrixEntries cols rows).map (ls.map (·.cast .f32) ++ ·)

def Value.ofTomlArray (items : List Toml) : Except String Value :=
  match Toml.rows? items with
  | some rows => do
    let cols := (rows.head?.map List.length).getD 0
    let values ← matrixEntries cols rows
    match Ty.ofMatrix rows.length cols with
    | .ok ty => .ok (.array values ty)
    | .error e => .error e.message
  | none =>
    match items.mapM Literal.ofToml? with
    | none => .error "array entries must be numbers"
    | some ls =>
      let s := match ls with
        | [] => .f32
        | l :: rest => (rest.map Literal.scalar).foldl Scalar.promote l.scalar
      match Ty.ofVector s ls.length with
      | .ok ty => .ok (.array (ls.map (·.cast s)) ty)
      | .error e => .error e.message

mutual

def Value.ofToml (t : Toml) : Except String Value :=
  match Literal.ofToml? t, t with
  | some l, _ => .ok (.number l)
  | none, .integer v => .error s!"{v} does not fit in i32"
  | none, .array items => Value.ofTomlArray items
  | none, .table entries => (recordOfToml entries).map .record
  | none, other => .error s!"unsupported constant {other.typeName}"

def recordOfToml : List (String × Toml) → Except String Record
  | [] => .ok .nil
  | (k, t) :: rest => do
    let v ← Value.ofToml t
    return .cons k v (← recordOfToml rest)

end

/-! ## Declarations -/

def readMember (name text : String) : Except ManifestError (String × Ty) :=
  match splitAt? ':' text.toList with
  | none => .error (.field name s!"member `{text}` must be `name: type`")
  | some (member, ty) =>
    match Ty.read? (String.ofList ty) with
    | some t => .ok (String.ofList (trim member), t)
    | none =>
      let shown := String.ofList (trim ty)
      .error (.field name s!"unknown member type `{shown}`")

def FieldDecl.elemTy (d : FieldDecl) (name : String) : Except ManifestError Ty :=
  if !d.members.isEmpty then
    if d.elem.isSome then .error (.field name "`elem` and `members` are exclusive")
    else do
      let ms ← d.members.mapM (readMember name)
      return .struct (.ofList ms)
  else
    let elem := d.elem.getD "f32"
    match Ty.read? elem with
    | some t => .ok t
    | none => .error (.field name s!"unknown element type `{elem}`")

def hostFile : Nat := 2

def FunctionValue.ofHost (name source : String) : Except ManifestError FunctionValue :=
  match Routine.parse hostFile source with
  | .ok routine => .ok { name, routine, origin := .host name }
  | .error cs => .error (.function name ("; ".intercalate (cs.map fun c => c.fault.message)))

/-! ## Building -/

structure Registry (σ : Type) where
  field (name : String) (shape : List UInt64) (elem : Ty) (init : Option Binary64) :
    StateT σ (Except ManifestError) FieldInfo
  texture (name : String) (dims : List Nat) (format : TexelFormat) (storage : Bool) :
    StateT σ (Except ManifestError) TextureInfo

structure IdCounter where
  nextField : Nat := 0
  nextTexture : Nat := 0
  deriving DecidableEq, Repr

def Registry.counting : Registry IdCounter where
  field name shape elem _ :=
    modifyGet fun c => ({ id := c.nextField, name, shape, elem }, { c with nextField := c.nextField + 1 })
  texture name dims format storage :=
    modifyGet fun c =>
      ({ id := c.nextTexture, name, dims, format, storage }, { c with nextTexture := c.nextTexture + 1 })

namespace Manifest

variable {σ : Type}

def addConstant (scope : Scope) (name : String) (t : Toml) : Except ManifestError Scope :=
  match Value.ofToml t with
  | .ok v => .ok (scope.insert name v)
  | .error m => .error (.constant name m)

def addField (reg : Registry σ) (scope : Scope) (name : String) (d : FieldDecl) :
    StateT σ (Except ManifestError) Scope := do
  if d.shape.isEmpty || d.shape.contains 0 then
    throw (.field name "shape must be non-empty with positive extents")
  let elem ← d.elemTy name
  let f ← reg.field name d.shape elem d.init
  return scope.insert name (.field f)

def addTexture (reg : Registry σ) (scope : Scope) (name : String) (d : TextureDecl) :
    StateT σ (Except ManifestError) Scope := do
  if d.dims.length ≠ 2 ∧ d.dims.length ≠ 3 then
    throw (.texture name s!"expected 2 or 3 dimensions, found {d.dims.length}")
  match TexelFormat.ofName? d.format with
  | none => throw (.texture name s!"unknown format `{d.format}`")
  | some format =>
    let t ← reg.texture name d.dims format d.storage
    return scope.insert name (.texture t)

def addFunction (scope : Scope) (name source : String) : Except ManifestError Scope :=
  (FunctionValue.ofHost name source).map fun f => scope.insert name (.function f)

/-- The scope of a manifest. Resources are created by name, fields before textures. -/
def build (reg : Registry σ) (m : Manifest) : StateT σ (Except ManifestError) Scope := do
  let scope ← m.constants.foldlM (fun s (k, t) => addConstant s k t) {}
  let scope ← m.fields.foldlM (fun s (k, d) => addField reg s k d) scope
  let scope ← m.textures.foldlM (fun s (k, d) => addTexture reg s k d) scope
  m.functions.foldlM (fun s (k, f) => addFunction s k f) scope

end Manifest

end ArrayKernel
