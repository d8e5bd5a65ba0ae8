import ArrayKernel.Lowering.Access

/-!
Selecting parts of a value: members, swizzles and indices.
-/

namespace ArrayKernel.Lowering

open IR Surface

/-! ## Swizzles -/

def swizzleIndex? : Char → Option Nat
  | 'x' | 'r' => some 0
  | 'y' | 'g' => some 1
  | 'z' | 'b' => some 2
  | 'w' | 'a' => some 3
  | _ => none

/-- The components that a member name of one to four letters names in a vector of the given width.
-/
def swizzle? (name : String) (width : Nat) : Option (List Nat) :=
  let cs := name.toList
  if cs.isEmpty || 4 < cs.length then none
  else cs.mapM fun c => (swizzleIndex? c).filter (· < width)

def vectorOrScalar (s : Scalar) (n : Nat) : Ty :=
  ((Dim.ofNat? n).map (Ty.vector s)).getD (.scalar s)

def swizzleValue (o : Operand) (ty : Ty) (s : Scalar) (picks : List Nat) : Lower Lowered := do
  let parts ← picks.mapM fun (i : Nat) => return (← extract o ty [.int i]).1
  match parts with
  | [p] => return .value p (.scalar s)
  | _ =>
    let out := vectorOrScalar s parts.length
    return .value (← emitValue (.compose parts out)) out

/-! ## Members -/

def member (base : Lowered) (name : String) (span : Span) : Lower Lowered :=
  let unknown (ty : String) : Lower Lowered := failAt span (.unknownField name ty)
  match base with
  | .static (.record r) =>
    match r.get? name with
    | some v => ofValue v
    | none => unknown "record"
  | .record es =>
    match es.get? name with
    | some l => pure l
    | none => unknown "struct value"
  | .static (.array vs (.vector s n)) =>
    match swizzle? name n.toNat with
    | none => unknown (Ty.vector s n).text
    | some picks =>
      match picks.filterMap (vs[·]?) with
      | [v] => pure (.static (.number v))
      | picked => pure (.static (.array picked (vectorOrScalar s picked.length)))
  | .place p =>
    match p.ty with
    | .struct _ => return .place (← memberPlace p name)
    | .vector s n =>
      match swizzle? name n.toNat with
      | none => unknown p.ty.text
      | some [i] => return .place (← subPlace p [.int i] span)
      | some picks => do
        let (o, ty) ← load p span
        swizzleValue o ty s picks
    | ty => unknown ty.text
  | .value o (.vector s n) =>
    match swizzle? name n.toNat with
    | none => unknown (Ty.vector s n).text
    | some picks => swizzleValue o (.vector s n) s picks
  | .value _ ty => unknown ty.text
  | other => unknown other.kindName

/-! ## Indices -/

/-- The integers of an index; a vector spreads into its components. -/
def indexOperands (l : Lowered) (span : Span) : Lower (List Operand) :=
  let spread (s : Scalar) : Lower (List Operand) := do
    let (o, ty) ← rvalue l span
    (← components o ty).mapM fun part => intOperand (.value part (.scalar s)) span
  match l with
  | .static (.array vs (.vector ..)) => vs.mapM fun v => intOperand (.static (.number v)) span
  | .value _ (.vector s _) => spread s
  | .place p =>
    match p.ty with
    | .vector s _ => spread s
    | _ => return [← intOperand l span]
  | _ => return [← intOperand l span]

def constAt? (vs : List Literal) (bound : Nat) (i : Int) : Option Literal :=
  if 0 ≤ i ∧ i < bound then vs[i.toNat]? else none

def staticIndex? (vs : List Literal) (ty : Ty) (indices : List Int) : Option Value :=
  match ty, indices with
  | .vector _ n, [i] => (constAt? vs n.toNat i).map .number
  | .matrix r c, [i] =>
    if 0 ≤ i ∧ i < r.toNat then some (.array ((vs.drop (i.toNat * c.toNat)).take c.toNat) (.vector .f32 c))
    else none
  | .matrix r c, [i, j] =>
    if 0 ≤ i ∧ i < r.toNat then (constAt? (vs.drop (i.toNat * c.toNat)) c.toNat j).map .number else none
  | _, _ => none

/-- A component of a vector value, or a row or component of a matrix value. -/
def indexValue (o : Operand) (ty : Ty) (indices : List Operand) (span : Span) : Lower Lowered :=
  let selected : Lower Lowered := do
    let (o, ty) ← extract o ty indices
    return .value o ty
  match ty, indices with
  | .vector .., [_] | .matrix .., [_] | .matrix .., [_, _] => selected
  | _, _ => failAt span (.invalidType s!"{ty.text} cannot be indexed with {indices.length} index(es)")

def index (base : Lowered) (indices : List Operand) (span : Span) : Lower Lowered :=
  match base with
  | .static (.field f) =>
    if indices.length ≠ f.shape.length then
      failAt span (.invalidType
        s!"field `{f.name}` has {f.shape.length} dimension(s) but is indexed with {indices.length}")
    else do
      touchField f
      return .place (.global f indices (.int 0) f.elem)
  | .place p => return .place (← subPlace p indices span)
  | .static (.array vs ty) =>
    match indices.mapM fun o => o.const?.bind Literal.toInt? with
    | some is =>
      match staticIndex? vs ty is with
      | some v => pure (.static v)
      | none => failAt span (.invalidType s!"index out of range for {ty.text}")
    | none => do
      let (o, ty) ← rvalue base span
      indexValue o ty indices span
  | .value o ty => indexValue o ty indices span
  | .static (.texture t) => failAt span (.unsupportedSyntax s!"indexing texture `{t.name}` (use textureLoad)")
  | other => failAt span (.unsupportedSyntax s!"indexing a {other.kindName}")

/-! ## Array literals -/

def staticArray? (items : List Value) : Except TypeError (Option Value) :=
  let number? : Value → Option Literal
    | .number l => some l
    | _ => none
  let row? : Value → Option (List Literal × Dim)
    | .array vs (.vector _ n) => some (vs, n)
    | _ => none
  match items.mapM number?, items.mapM row? with
  | some (l :: ls), _ => do
    let s := (ls.map Literal.scalar).foldl Scalar.promote l.scalar
    let ty ← Ty.ofVector s (ls.length + 1)
    return some (.array ((l :: ls).map (·.cast s)) ty)
  | _, some ((row, n) :: rows) =>
    if rows.all (·.2 = n) then do
      let ty ← Ty.ofMatrix (rows.length + 1) n.toNat
      return some (.array ((((row, n) :: rows).flatMap Prod.fst).map (·.cast .f32)) ty)
    else return none
  | _, _ => return none

def arrayOf (items : List Arg) (span : Span) : Lower Lowered := do
  let static? ← match items.mapM fun a => a.lowered.static? with
    | some vs => typed span (staticArray? vs)
    | none => pure none
  match static? with
  | some v => return .static v
  | none =>
    let values ← items.mapM fun a => rvalue a.lowered a.span
    match values with
    | [] => failAt span (.invalidType "empty array literal")
    | (_, .scalar s) :: rest =>
      let elem ← typed span ((rest.map Prod.snd).foldlM Ty.broadcast (.scalar s))
      let ty ← typed span (Ty.ofVector (elem.scalar?.getD .f32) values.length)
      let parts ← values.mapM fun (o, t) =>
        if t.isScalar then coerce o t elem span else failAt span (.shapeMismatch (.scalar s) t)
      return .value (← emitValue (.compose parts ty)) ty
    | (_, .vector s n) :: _ =>
      let ty ← typed span (Ty.ofMatrix values.length n.toNat)
      let row := Ty.vector .f32 n
      let parts ← values.mapM fun (o, t) =>
        if t.isVector && t.size = n.toNat then do
          components (← coerce o t row span) row
        else failAt span (.shapeMismatch (.vector s n) t)
      return .value (← emitValue (.compose parts.flatten ty)) ty
    | (_, ty) :: _ => failAt span (.invalidType s!"array of {ty.text}")

end ArrayKernel.Lowering
