import ArrayKernel.Shader.Binding

/-!
Recovering the bindings and the entry point of a shader from its text.

Declarations of the form `@group(g) @binding(b) var<...> name : type;` are found wherever they
stand, and what lies between them is skipped. Positions in messages count bytes.
-/

namespace ArrayKernel.Shader

open Text Number

attribute [local instance (high)] instPowNat Zero.ofOfNat0

/-! ## Comments -/

def blankOf (c : Char) : List Char := List.replicate c.utf8Size ' '

inductive CommentState where
  | outside
  | line
  | block (depth : Nat)
  deriving DecidableEq, Repr

/-- Replaces comments by blanks. Newlines stay, and every other character keeps its position. -/
def stripFrom : CommentState → List Char → List Char
  | _, [] => []
  | .outside, '/' :: '/' :: rest => ' ' :: ' ' :: stripFrom .line rest
  | .outside, '/' :: '*' :: rest => ' ' :: ' ' :: stripFrom (.block 1) rest
  | .outside, c :: rest => c :: stripFrom .outside rest
  | .line, '\n' :: rest => '\n' :: stripFrom .outside rest
  | .line, c :: rest => blankOf c ++ stripFrom .line rest
  | .block d, '/' :: '*' :: rest => ' ' :: ' ' :: stripFrom (.block (d + 1)) rest
  | .block d, '*' :: '/' :: rest =>
    ' ' :: ' ' :: stripFrom (if d ≤ 1 then .outside else .block (d - 1)) rest
  | .block d, '\n' :: rest => '\n' :: stripFrom (.block d) rest
  | .block d, c :: rest => blankOf c ++ stripFrom (.block d) rest

def stripComments (text : List Char) : List Char := stripFrom .outside text

/-! ## Steps -/

def isWordChar (c : Char) : Bool := c.isAlphanum || c = '_'

def byteLength (cs : List Char) : Nat := (cs.map Char.utf8Size).sum

/-- The text that is still to be read, and the position where it starts. -/
structure Reader where
  offset : Nat
  rest : List Char

abbrev Read := StateT Reader (Except ReflectionError)

namespace Reader

def advance (r : Reader) (n : Nat) : Reader :=
  ⟨r.offset + byteLength (r.rest.take n), r.rest.drop n⟩

def skipBlanks (r : Reader) : Reader := r.advance (r.rest.takeWhile isBlank).length

end Reader

def fail {α : Type} (message : String) : Read α := do
  throw (.malformed (← get).offset message)

def eat (token : String) : Read Bool := do
  modify Reader.skipBlanks
  let r ← get
  if token.toList.isPrefixOf r.rest then
    set (r.advance token.toList.length)
    return true
  else return false

def expect (token : String) : Read Unit := do
  if !(← eat token) then fail s!"expected `{token}`"

def identifier : Read String := do
  modify Reader.skipBlanks
  let r ← get
  match r.rest.takeWhile isWordChar with
  | [] => fail "expected an identifier"
  | word =>
    set (r.advance word.length)
    return String.ofList word

def number : Read Nat := do
  modify Reader.skipBlanks
  let r ← get
  let digits := r.rest.takeWhile Char.isDigit
  match readNatBelow? (2 ^ (32 : Nat)) digits with
  | none => fail "expected an integer"
  | some n =>
    let r := r.advance digits.length
    match r.rest with
    | 'u' :: _ | 'i' :: _ => set (r.advance 1)
    | _ => set r
    return n

def untilSemicolon : Read (List Char) := do
  let r ← get
  let text := r.rest.takeWhile (· != ';')
  if text.length = r.rest.length then fail "missing `;`"
  else
    set (r.advance (text.length + 1))
    return text

/-! ## Declarations -/

/-- The access of a variable without an address space, as its type tells. -/
def accessOfType (ty : List Char) : Access :=
  if occursIn "read_write>".toList ty then .readWrite
  else if occursIn "write>".toList ty then .write
  else .read

/-- The access that stands between angle brackets after `var`. An address space alone is read only.
-/
def accessMode : Read (Option Access) := do
  if ← eat "<" then
    let _ ← identifier
    let access ←
      if ← eat "," then
        let mode ← identifier
        match Access.ofName? mode with
        | some a => pure a
        | none => fail s!"unknown access mode `{mode}`"
      else pure .read
    expect ">"
    return some access
  else return none

def attributeNumber (name : String) : Read Nat := do
  expect name
  expect "("
  let n ← number
  expect ")"
  return n

def binding : Read Binding := do
  let group ← attributeNumber "@group"
  let binding ← attributeNumber "@binding"
  expect "var"
  let mode ← accessMode
  let name ← identifier
  expect ":"
  let ty ← untilSemicolon
  match ResourceKind.ofName? name with
  | some kind => return { group, binding, kind, access := mode.getD (accessOfType ty), name }
  | none => throw (.unknownResource name)

/-- The workgroup size, a missing dimension as one. A comma may stand after the last number. -/
def workgroupSize : Read (Nat × Nat × Nat) := do
  expect "@workgroup_size"
  expect "("
  let x ← number
  let close : Read Unit := do
    let _ ← eat ","
    expect ")"
  if !(← eat ",") then
    close
    return (x, 1, 1)
  else if ← eat ")" then return (x, 1, 1)
  else
    let y ← number
    if !(← eat ",") then
      close
      return (x, y, 1)
    else if ← eat ")" then return (x, y, 1)
    else
      let z ← number
      close
      return (x, y, z)

/-! ## The whole text -/

/-- The places where a word starts, as readers, given the character before. The word ends where it
does: no word character follows. -/
def occurrences (word : List Char) : Option Char → Reader → List (Option Char × Reader)
  | before, ⟨offset, text⟩ =>
    match text with
    | [] => []
    | c :: rest =>
      let here :=
        match afterStart? word (c :: rest) with
        | some after => !(after.head?.any isWordChar)
        | none => false
      let later := occurrences word (some c) ⟨offset + c.utf8Size, rest⟩
      if here then (before, ⟨offset, c :: rest⟩) :: later else later
termination_by _ r => r.rest.length

def attributes (name : String) (text : List Char) : List Reader :=
  (occurrences name.toList none ⟨0, text⟩).map Prod.snd

def insertBinding (b : Binding) : List Binding → List Binding
  | [] => [b]
  | c :: cs =>
    if b.group < c.group ∨ b.group = c.group ∧ b.binding < c.binding then b :: c :: cs
    else c :: insertBinding b cs

def stages : List (String × Stage) :=
  [("@compute", .compute), ("@vertex", .vertex), ("@fragment", .fragment)]

def firstStage? (text : List Char) : Option (Reader × Stage) :=
  let found := stages.filterMap fun (name, stage) => (attributes name text).head?.map (·, stage)
  found.foldl
    (fun best next =>
      match best with
      | some b => if next.1.offset < b.1.offset then some next else some b
      | none => some next)
    none

def bindingsOf (text : List Char) : Except ReflectionError (List Binding) := do
  let all ← (attributes "@group" text).mapM fun r => binding.run' r
  let distinct := all.foldl (fun seen b => if b ∈ seen then seen else seen ++ [b]) []
  return distinct.foldl (fun sorted b => insertBinding b sorted) []

def reflect (source : String) : Except ReflectionError Reflection := do
  let text := stripComments source.toList
  let bindings ← bindingsOf text
  match firstStage? text with
  | none => throw .noEntryPoint
  | some (start, stage) =>
    let function? := (occurrences "fn".toList none ⟨0, start.rest⟩).find? fun (before, _) => !before.any isWordChar
    match function? with
    | none => throw .noEntryPoint
    | some (_, function) =>
      let entry ← identifier.run' (function.advance 2)
      let size? := (attributes "@workgroup_size" start.rest).find? fun r => r.offset < function.offset
      let workgroupSize ←
        match stage, size? with
        | .compute, some r => some <$> workgroupSize.run' r
        | _, _ => pure none
      return { stage, entry, workgroupSize, bindings }

end ArrayKernel.Shader
