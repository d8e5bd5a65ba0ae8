import ArrayKernel.Shader.Emitter

/-!
The text of statements.
-/

namespace ArrayKernel.Shader

open IR

/-! ## Words of buffers -/

def wordAt (buffer : String) (a : Address) (atomic : Bool) (k : Nat) : Word :=
  { target := s!"{buffer}[{a.word k}]", atomic }

def fieldWords? (ptr : StmtId) : Emit (Option (Nat → Word)) := do
  match (← get).ptrs[ptr]? with
  | none => return none
  | some (f, a) =>
    let name ← resource (.field f)
    return some (wordAt name a ((← read).usage.atomic.contains f))

def sharedWords (a : Address) : Emit (Nat → Word) := do
  return wordAt (← resource .shared) a true

def fieldAddress (id : StmtId) (field : Nat) (indices : List Operand) (offset : Operand) :
    Emit Unit := do
  let (strides, comps) := match (← read).kernel.field? field with
    | some f => (f.strides, f.elem.size)
    | none => (List.replicate indices.length 1, 1)
  let terms ← (indices.zip strides).mapM fun (i, stride) => do
    return (i, stride.toInt64 * Int64.ofNat comps, ← operand i)
  let sum := terms.foldl (fun a (i, scale, text) => a.add i scale text) (Address.const 0)
  let sum := sum.add offset 1 (← operand offset)
  let address ← match sum.dynamic? with
    | some terms => do
      let name := valueName id
      line s!"let {name}: i32 = {terms};"
      pure { terms := [name], offset := sum.offset : Address }
    | none => pure sum
  modify fun e => { e with ptrs := e.ptrs.insert id (field, address) }

/-! ## Slots -/

inductive LocalAccess where
  | expr (text : String)
  | row (name : String) (cols : Nat) (row : String)
  | words (a : Address)

def localAccess (slot : StmtId) (indices : List Operand) : Emit LocalAccess := do
  let texts ← indices.mapM indexText
  match (← get).slots[slot]? with
  | some (.shared offset ty) =>
    let cols := match ty with
      | .matrix _ c => c.toNat
      | _ => 1
    let scales := Int64.ofNat cols :: List.replicate (indices.length - 1) 1
    let a := (indices.zip (scales.zip texts)).foldl
      (fun a (i, scale, text) => a.add i scale text) (Address.const (Int64.ofNat offset))
    return .words a
  | some (.variable name ty) =>
    match ty, texts with
    | .matrix _ c, [r] => return .row name c.toNat r
    | .matrix .., [r, c] => return .expr s!"{name}[{c}][{r}]"
    | _, [i] => return .expr s!"{name}[{i}]"
    | _, _ => return .expr name
  | none => return .expr (valueName slot)

def readLocal (access : LocalAccess) (ty : Ty) : Emit String := do
  match access with
  | .expr text => return text
  | .row name cols r => return matrixRow name cols r
  | .words a => return readWords ty (← sharedWords a)

def writeLocal (access : LocalAccess) (ty : Ty) (value : String) : Emit (List String) := do
  match access with
  | .expr text => return [s!"{text} = {value};"]
  | .row name cols r =>
    return (List.range cols).map fun c =>
      match ty with
      | .vector .. => s!"{name}[{c}][{r}] = {value}[{c}];"
      | _ => s!"{name}[{c}][{r}] = {value};"
  | .words a => return writeWords ty value (← sharedWords a)

/-! ## Read-modify-write -/

def isNative (kind : AtomicKind) : Scalar → Bool
  | .i32 => true
  | .u32 => kind ≠ .min && kind ≠ .max
  | .f32 => false

/-- A read-modify-write by a loop that retries until no other thread was in between. -/
def exchangeLoop (id : StmtId) (w : Word) (kind : AtomicKind) (value : String) (s : Scalar) :
    Emit Unit := do
  let name := valueName id
  line s!"var {name}_old: i32 = {w.load};"
  line "loop \x7b"
  indented do
    let updated := encode (combine kind (decode s!"{name}_old" s) value) s
    line s!"let {name}_new: i32 = {updated};"
    line s!"let {name}_res = atomicCompareExchangeWeak(&{w.target}, {name}_old, {name}_new);"
    line s!"if ({name}_res.exchanged) \x7b break; \x7d"
    line s!"{name}_old = {name}_res.old_value;"
  line "\x7d"

def atomicWord (id : StmtId) (w : Word) (kind : AtomicKind) (value : String) (ty : Ty) :
    Emit Unit := do
  let s := wordScalar ty
  if !w.atomic then
    bindValue id ty (decode w.target s)
    line (w.store (encode (combine kind (valueName id) value) s))
  else if isNative kind s then
    let word := encode value s
    bindValue id ty (decode s!"{kind.shaderName}(&{w.target}, {word})" s)
  else
    exchangeLoop id w kind value s
    bindValue id ty (decode s!"{valueName id}_old" s)

/-- A read-modify-write. A slot that only one thread sees is read and written like any other. -/
def emitAtomic (id : StmtId) (target : AtomicTarget) (kind : AtomicKind) (value : Operand)
    (ty : Ty) :
    Emit Unit := do
  let v ← operand value
  match target with
  | .global _ ptr =>
    match ← fieldWords? ptr with
    | some word => atomicWord id (word 0) kind v ty
    | none => pure ()
  | .local slot indices =>
    match ← localAccess slot indices with
    | .words a => atomicWord id ((← sharedWords a) 0) kind v ty
    | access =>
      bindValue id ty (← readLocal access ty)
      (← writeLocal access ty (combine kind (valueName id) v)).forM line

/-! ## Statements -/

def emitTexture (id : StmtId) (texture : Nat) (op : TextureOp) (coords : Operand)
    (value : Option Operand) (ty : Ty) : Emit Unit := do
  let at_ ← operand coords
  match op with
  | .load =>
    let tex ← resource (.texture texture)
    bindValue id ty s!"textureLoad({tex}, {at_}, 0)"
  | .sample =>
    let tex ← resource (.texture texture)
    let sampler ← resource (.sampler texture)
    bindValue id ty s!"textureSampleLevel({tex}, {sampler}, {at_}, 0.0)"
  | .store =>
    let tex ← resource (.storageTexture texture)
    let v ← match value with
      | some v => operand v
      | none => pure (compose ty [])
    line s!"textureStore({tex}, {at_}, {v});"

def emitOp (id : StmtId) : Op → Emit Unit
  | .alloca ty hint => do
    if !(← get).slots.contains id then
      let name := varName id hint
      line s!"var {name}: {ty.shaderText};"
      modify fun e => { e with slots := e.slots.insert id (.variable name ty) }
  | .localLoad slot indices ty => do
    let access ← localAccess slot indices
    bindValue id ty (← readLocal access ty)
  | .localStore slot indices value => do
    let access ← localAccess slot indices
    let ty ← operandTy value
    (← writeLocal access ty (← operand value)).forM line
  | .globalPtr field indices offset => fieldAddress id field indices offset
  | .globalLoad ptr ty => do
    match ← fieldWords? ptr with
    | some word => bindValue id ty (readWords ty word)
    | none => bindValue id ty (zero ty)
  | .globalStore ptr value => do
    match ← fieldWords? ptr with
    | some word => (writeWords (← operandTy value) (← operand value) word).forM line
    | none => pure ()
  | .binary op lhs rhs operandTy ty => do
    let a ← operand lhs
    let b ← operand rhs
    if needsFloorDiv op operandTy then modify fun e => { e with floorDiv := true }
    bindValue id ty (binaryExpr op a b operandTy ty)
  | .unary op x ty => do
    let a ← operand x
    bindValue id ty (unaryExpr op a (← operandTy x) ty)
  | .compose parts ty => do
    bindValue id ty (compose ty (← parts.mapM operand))
  | .extract value indices ty => do
    let valueTy ← operandTy value
    let v ← operand value
    match valueTy, ← indices.mapM indexText with
    | .vector .., [i] => bindValue id ty s!"{v}[{i}]"
    | .matrix _ c, [r] => bindValue id ty (matrixRow v c.toNat r)
    | .matrix .., [r, c] => bindValue id ty s!"{v}[{c}][{r}]"
    | _, _ => bindValue id ty v
  | .loopControl .break_ => line "break;"
  | .loopControl .continue_ => line "continue;"
  | .atomic target kind value ty => emitAtomic id target kind value ty
  | .call intrinsic args _ ty => do
    let call := intrinsic.render (← args.mapM operand)
    bindValue id ty (if intrinsic.kind = .sign then applied ty.shaderText [call] else call)
  | .texture texture op coords value ty => emitTexture id texture op coords value ty
  | .ret value ty => do
    let rets ← resource .rets
    let v ← operand value
    (writeWords ty v (wordAt rets (.const 0) false)).forM line
  | .random ty => do
    modify fun e => { e with random := true }
    bindValue id ty "rng_next()"
  | .argLoad index ty => do
    let args ← resource .args
    bindValue id ty (decode s!"{args}[{index}]" (wordScalar ty))

mutual

def emitStmt : Stmt → Emit Unit
  | .op id o => emitOp id o
  | .rangeFor id first last body hint => do
    let name ← declareIndex id hint
    let b ← operand first
    let e ← operand last
    line s!"for (var {name}: i32 = {b}; {name} < {e}; {name} = {name} + 1i) \x7b"
    indented (emitBlock body)
    line "\x7d"
  | .while_ _ condBody cond body => do
    line "loop \x7b"
    indented do
      emitBlock condBody
      let test ← condition cond
      line s!"if (!({test})) \x7b break; \x7d"
      emitBlock body
    line "\x7d"
  | .ifElse _ cond yes no => do
    let test ← condition cond
    line s!"if ({test}) \x7b"
    indented (emitBlock yes)
    if !no.isEmpty then
      line "\x7d else \x7b"
      indented (emitBlock no)
    line "\x7d"

def emitBlock : List Stmt → Emit Unit
  | [] => pure ()
  | s :: ss => do
    emitStmt s
    emitBlock ss

end

end ArrayKernel.Shader
