import ArrayKernel.Lowering.Arithmetic

/-!
Reading and writing places, and the places inside a place.
-/

namespace ArrayKernel.Lowering

open IR Surface

/-! ## Reading -/

def globalPtr (f : FieldInfo) (indices : List Operand) (offset : Operand) : Lower StmtId :=
  emit (.globalPtr f.id indices offset)

def load (place : Place) (span : Span) : Lower TypedOperand :=
  if place.ty.isStruct then failAt span (.unsupportedSyntax "using a whole struct as a number")
  else match place with
    | .local slot _ indices ty => return (← emitValue (.localLoad slot indices ty), ty)
    | .global f indices offset ty => do
      let ptr ← globalPtr f indices offset
      return (← emitValue (.globalLoad ptr ty), ty)

def rvalue (l : Lowered) (span : Span) : Lower TypedOperand :=
  match l with
  | .value o ty => pure (o, ty)
  | .place p => load p span
  | .static (.number c) => pure (.const c, c.ty)
  | .static (.array vs ty) => return (← emitValue (.compose (vs.map .const) ty), ty)
  | other => failAt span (.unsupportedSyntax s!"using a {other.kindName} as a number")

/-- The integer that something stands for, as an index or a bound. A constant float counts if it is
whole. -/
def intOperand (l : Lowered) (span : Span) : Lower Operand := do
  let (o, ty) ← rvalue l span
  match ty with
  | .scalar .i32 => return o
  | .scalar .u32 => castScalar o .u32 .i32
  | .scalar .f32 =>
    match o.const?.bind Literal.toInt? with
    | some v => return .int v
    | none => failAt span (.invalidOperand "[]" ty.text)
  | _ => failAt span (.invalidOperand "[]" ty.text)

def allocSlot (value : Lowered) (hint : String) (span : Span) : Lower Place := do
  let (o, ty) ← rvalue value span
  let slot ← emit (.alloca ty (hintOf hint))
  let _ ← emit (.localStore slot [] o)
  return .local slot ty [] ty

/-! ## Places inside a place -/

def memberPlace (place : Place) (name : String) : Lower Place := do
  let (start, ty) ← typed CompileError.nowhere (place.ty.member name)
  match place with
  | .global f indices offset _ => return .global f indices (← intBinary .add offset (.int start)) ty
  | .local .. => failAt CompileError.nowhere (.unsupportedSyntax "struct-typed local")

def memberPlaces (place : Place) : Members → Lower (List (String × Place))
  | .nil => pure []
  | .cons name _ rest => do
    let p ← memberPlace place name
    return (name, p) :: (← memberPlaces place rest)

def loadRecord? (place : Place) : Lower (Option Entries) :=
  match place.ty with
  | .struct ms => return some (.ofList ((← memberPlaces place ms).map fun (k, p) => (k, .place p)))
  | _ => pure none

def subPlace (place : Place) (indices : List Operand) (span : Span) : Lower Place :=
  let narrow (ty : Ty) (step : Lower Operand) : Lower Place :=
    match place with
    | .local slot slotTy selected _ => pure (.local slot slotTy (selected ++ indices) ty)
    | .global f elem offset _ => do
      let s ← step
      return .global f elem (← intBinary .add offset s) ty
  match place.ty, indices with
  | .vector s _, [i] => narrow (.scalar s) (pure i)
  | .matrix _ c, [i] => narrow (.vector .f32 c) (intBinary .mul i (.int c.toNat))
  | .matrix _ c, [i, j] =>
    narrow .f32 do
      let row ← intBinary .mul i (.int c.toNat)
      intBinary .add row j
  | ty, _ => failAt span (.invalidType s!"{ty.text} cannot be indexed with {indices.length} index(es)")

/-! ## Writing -/

def structEntries (place : Place) (value : Lowered) (span : Span) : Lower Entries := do
  let invalid := failAt span (.invalidAssignment s!"a struct from a {value.kindName}")
  match value with
  | .record es => return es
  | .static (.record r) => return .ofList (← r.toList.mapM fun (k, v) => return (k, ← ofValue v))
  | .place src =>
    if src.ty = place.ty then return (← loadRecord? src).getD .nil else invalid
  | _ => invalid

abbrev Storer := Place → Lowered → Span → Lower Unit

mutual

/-- How a place of a type is assigned to: a structure member by member, all else after conversion.
Of members of one name the first counts. -/
def storer : Ty → Storer
  | .struct ms => fun place value span => do
    let entries ← structEntries place value span
    let members := memberStorers ms
    (members.map Prod.fst).forM fun name =>
      match entries.get? name, members.lookup name with
      | some v, some assign => do assign (← memberPlace place name) v span
      | _, _ => failAt span (.unknownField name "struct value")
  | ty => fun place value span => do
    let (o, source) ← rvalue value span
    let o ← coerce o source ty span
    match place with
    | .local slot _ indices _ => discard <| emit (.localStore slot indices o)
    | .global f indices offset _ => do
      let ptr ← globalPtr f indices offset
      discard <| emit (.globalStore ptr o)

def memberStorers : Members → List (String × Storer)
  | .nil => []
  | .cons name ty rest => (name, storer ty) :: memberStorers rest

end

def store (place : Place) (value : Lowered) (span : Span) : Lower Unit :=
  storer place.ty place value span

def atomic (place : Place) (kind : AtomicKind) (value : Lowered) (span : Span) :
    Lower TypedOperand := do
  let invalid := failAt span (.invalidOperand kind.shaderName place.ty.text)
  match place.ty with
  | .scalar s =>
    if s.isFloat && (kind = .and || kind = .or || kind = .xor) then invalid
    else
      let (o, source) ← rvalue value span
      let o ← coerce o source place.ty span
      let target ← match place with
        | .local slot _ indices _ => pure (AtomicTarget.local slot indices)
        | .global f indices offset _ => pure (.global f.id (← globalPtr f indices offset))
      return (← emitValue (.atomic target kind o place.ty), place.ty)
  | _ => invalid

/-! ## Names for values -/

abbrev Copier := Place → String → Span → Lower Value

mutual

/-- How a place of a type is copied: a structure member by member. Of members of one name the first
counts. -/
def copier : Ty → Copier
  | .struct ms => fun place name span => do
    let members := memberCopiers ms
    let places ← memberPlaces place ms
    let copies ← places.mapM fun (k, p) => do
      match members.lookup k with
      | some copy => return (k, ← copy p s!"{name}_{k}" span)
      | none => failAt span (.unsupportedSyntax "struct copy")
    return .record (.ofList copies)
  | _ => fun place name span => return .place (← allocSlot (.place place) name span)

def memberCopiers : Members → List (String × Copier)
  | .nil => []
  | .cons name ty rest => (name, copier ty) :: memberCopiers rest

end

/-- Whether a value known at compile time is never copied into a slot. -/
def isShared : Value → Bool
  | .field _ | .texture _ | .function _ | .record _ => true
  | _ => false

mutual

/-- The value that a declaration gives to a name. Numbers are copied into a slot, unless they are
known at compile time and the name is constant. -/
def bindDecl (kind : DeclKind) (name : String) (span : Span) : Lowered → Lower Value
  | .static v =>
    if isShared v || kind = .const then pure v
    else return .place (← allocSlot (.static v) name span)
  | .record es => return .record (← bindMembers name span es)
  | .place p => copier p.ty p name span
  | .void => failAt span (.invalidAssignment s!"`{name}` from an expression without a value")
  | .value o ty => return .place (← allocSlot (.value o ty) name span)

def bindMembers (name : String) (span : Span) : Entries → Lower Record
  | .nil => pure .nil
  | .cons k v rest => do
    let v ← bindDecl .let_ s!"{name}_{k}" span v
    return .cons k v (← bindMembers name span rest)

end

mutual

/-- The value that a call gives to a parameter. Places are passed on, so that a helper can write
through them. -/
def bindArg (name : String) (span : Span) : Lowered → Lower Value
  | .place p => pure (.place p)
  | .static v => pure v
  | .record es => return .record (← bindArgMembers span es)
  | .void => failAt span (.invalidAssignment s!"parameter `{name}` from an expression without a value")
  | .value o ty => return .place (← allocSlot (.value o ty) name span)

def bindArgMembers (span : Span) : Entries → Lower Record
  | .nil => pure .nil
  | .cons k v rest => do
    let v ← bindArg k span v
    return .cons k v (← bindArgMembers span rest)

end

end ArrayKernel.Lowering
