import ArrayKernel.Toml.Scalar

/-!
Reading TOML documents.

Tables come about in three ways: by a header of their own, as the way to a table further down, and
by dotted keys. How a table came about decides what may still be added to it.
-/

namespace ArrayKernel.Toml

open Parse

/-! ## Keys -/

def isBareKeyChar (c : Char) : Bool := c.isAlphanum || c = '_' || c = '-'

def simpleKey : Parse String := do
  match ← peek with
  | some '\x22' | some '\x27' => shortString
  | _ =>
    match ← takeWhile isBareKeyChar with
    | [] => failure
    | cs => return String.ofList cs

def nestingLimit : Nat := 80

def keySegments : Nat → Parse (List String)
  | 0 => failure
  | n + 1 => do
    spaces
    let k ← simpleKey
    spaces
    if ← optionalToken "." then return k :: (← keySegments n) else return [k]

def dottedKey : Parse (List String × String) := do
  let ks ← keySegments (nestingLimit - 1)
  match ks.getLast? with
  | some k => return (ks.dropLast, k)
  | none => failure

/-! ## Values -/

/-- Blanks, newlines and comments inside an array; so many lines at most. -/
def arrayBlanks : Nat → Parse Unit
  | 0 => pure ()
  | n + 1 => do
    spaces
    match ← peek with
    | some '#' =>
      comment
      newline
      arrayBlanks n
    | some '\n' | some '\r' =>
      newline
      arrayBlanks n
    | _ => pure ()

def blanksInArray : Parse Unit := do arrayBlanks ((← get).length + 1)

/-- The items of an array up to its end, at most so many. A comma may follow the last. -/
def arrayItems (item : Parse Toml) : Nat → Parse (List Toml)
  | 0 => failure
  | n + 1 => do
    blanksInArray
    if ← optionalToken "]" then return []
    else
      let v ← item
      blanksInArray
      if ← optionalToken "," then return v :: (← arrayItems item n)
      else
        token "]"
        return [v]

structure Entry where
  path : List String
  key : String
  value : Toml

def inlineEntry (item : Parse Toml) : Parse Entry := do
  let (path, key) ← dottedKey
  token "="
  spaces
  let value ← item
  spaces
  return { path, key, value }

/-- The entries of an inline table up to its end, at most so many. -/
def inlineEntries (item : Parse Toml) : Nat → Parse (List Entry)
  | 0 => failure
  | n + 1 => do
    let e ← inlineEntry item
    if ← optionalToken "," then return e :: (← inlineEntries item n)
    else
      token "\x7d"
      return [e]

/-! ## Tables -/

mutual

inductive Node where
  | value (v : Toml)
  | table (t : Table)
  /-- The tables of repeated headers in double brackets. -/
  | tables (ts : List Table)

/-- A table while a document is read: whether it came about only as the way to another, and whether
by dotted keys. -/
inductive Table where
  | mk (implicit dotted : Bool) (entries : List (String × Node))

end

namespace Table

instance : Inhabited Table := ⟨.mk false false []⟩

def implicit : Table → Bool
  | .mk i _ _ => i

def dotted : Table → Bool
  | .mk _ d _ => d

def entries : Table → List (String × Node)
  | .mk _ _ es => es

def get? (t : Table) (key : String) : Option Node := List.lookup key t.entries

def set (t : Table) (key : String) (n : Node) : Table :=
  let es := t.entries
  .mk t.implicit t.dotted
    (if es.any (·.1 = key) then es.map fun e => if e.1 = key then (key, n) else e else es ++ [(key, n)])

def erase (t : Table) (key : String) : Table :=
  .mk t.implicit t.dotted (t.entries.filter (·.1 ≠ key))

/-- Changes the table at the end of a path. Missing tables come about on the way; a dotted path may
not enter a table that has a header of its own. -/
def modifyAt (dotted : Bool) (f : Table → Option Table) : List String → Table → Option Table
  | [], t => f t
  | k :: path, t =>
    match t.get? k with
    | none => (modifyAt dotted f path (.mk true dotted [])).map fun u => t.set k (.table u)
    | some (.value _) => none
    | some (.table u) =>
      if dotted && !u.implicit then none
      else (modifyAt dotted f path u).map fun u => t.set k (.table u)
    | some (.tables us) =>
      match us.getLast? with
      | some u => (modifyAt dotted f path u).map fun u => t.set k (.tables (us.dropLast ++ [u]))
      | none => none

def addEntry (t : Table) (e : Entry) : Option Table :=
  t.modifyAt true
    (fun u =>
      if u.dotted = e.path.isEmpty || (u.get? e.key).isSome then none
      else some (u.set e.key (.value e.value)))
    e.path

/-- The table at the end of a path, empty if it is not there yet. -/
def find? (t : Table) : List String → Option Table
  | [] => some t
  | k :: path =>
    match t.get? k with
    | none => some (.mk true false [])
    | some (.value _) => none
    | some (.table u) => u.find? path
    | some (.tables us) =>
      match us.getLast? with
      | some u => u.find? path
      | none => none

/-- The table that a header opens: a new one, or one that was only the way to another so far. -/
def openAt (root : Table) (path : List String) (key : String) : Option Table := do
  let parent ← root.find? path
  match parent.get? key with
  | none => some default
  | some (.table u) => if u.implicit && !u.dotted then some (.mk false false u.entries) else none
  | some _ => none

/-- Puts the table of a header in its place, which is behind all that its parent has so far. -/
def close (root : Table) (path : List String) (key : String) (t : Table) : Option Table :=
  root.modifyAt false (fun parent => some ((parent.erase key).set key (.table t))) path

def opensItem (root : Table) (path : List String) (key : String) : Bool :=
  match root.find? path with
  | none => false
  | some parent =>
    match parent.get? key with
    | none | some (.tables _) => true
    | some _ => false

def closeItem (root : Table) (path : List String) (key : String) (t : Table) : Option Table :=
  root.modifyAt false
    (fun parent =>
      match parent.get? key with
      | none => some (parent.set key (.tables [t]))
      | some (.tables us) => some (parent.set key (.tables (us ++ [t])))
      | some _ => none)
    path

end Table

mutual

def Node.toToml : Node → Toml
  | .value v => v
  | .table t => t.toToml
  | .tables ts => .array (tablesToToml ts)

def Table.toToml : Table → Toml
  | .mk _ _ es => .table (entriesToToml es)

def tablesToToml : List Table → List Toml
  | [] => []
  | t :: ts => t.toToml :: tablesToToml ts

def entriesToToml : List (String × Node) → List (String × Toml)
  | [] => []
  | (k, n) :: es => (k, n.toToml) :: entriesToToml es

end

/-- The entries of inline tables are added like those of the document, but a dotted key may not
enter a table that is written out. -/
def tableOfEntries (es : List Entry) : Option Toml :=
  (es.foldlM Table.addEntry default).map Table.toToml

def value (depth : Nat) : Parse Toml := do
  match ← peek with
  | some '\x22' | some '\x27' => return .string (← stringValue)
  | some '[' =>
    match depth with
    | 0 => failure
    | d + 1 =>
      token "["
      return .array (← arrayItems (value d) ((← get).length + 1))
  | some '\x7b' =>
    match depth with
    | 0 => failure
    | d + 1 =>
      token "\x7b"
      spaces
      let es ← if ← optionalToken "\x7d" then pure [] else inlineEntries (value d) ((← get).length + 1)
      match tableOfEntries es with
      | some t => return t
      | none => failure
  | some 't' =>
    token "true"
    return .boolean true
  | some 'f' =>
    token "false"
    return .boolean false
  | some _ => dateTime <|> number
  | none => failure

/-! ## Documents -/

inductive Header where
  | table
  | item
  deriving DecidableEq

inductive Line where
  | blank
  | header (h : Header) (path : List String) (key : String)
  | entry (e : Entry)

def line : Parse Line := do
  match ← peek with
  | some '#' =>
    comment
    lineEnd
    return .blank
  | some '\n' | some '\r' =>
    newline
    return .blank
  | some '[' =>
    let h ← if ← optionalToken "[[" then pure Header.item else do token "["; pure Header.table
    let (path, key) ← dottedKey
    token (if h = .item then "]]" else "]")
    lineTail
    return .header h path key
  | _ =>
    let (path, key) ← dottedKey
    token "="
    spaces
    let value ← value (nestingLimit - 1)
    lineTail
    return .entry { path, key, value }

def lines : Nat → Parse (List Line)
  | 0 => failure
  | n + 1 => do
    spaces
    if (← get).isEmpty then return []
    else
      let l ← line
      return l :: (← lines n)

/-- A document while it is read: all but the table of the last header, and that table with its
header. -/
structure Draft where
  root : Table := default
  current : Table := default
  header : Option (Header × List String × String) := none

namespace Draft

def finish (d : Draft) : Option Table :=
  match d.header with
  | none => some d.current
  | some (.table, path, key) => d.root.close path key d.current
  | some (.item, path, key) => d.root.closeItem path key d.current

def step (d : Draft) : Line → Option Draft
  | .blank => some d
  | .entry e => (d.current.addEntry e).map fun t => { d with current := t }
  | .header h path key => do
    let root ← d.finish
    match h with
    | .table =>
      let t ← root.openAt path key
      return { root, current := t, header := some (h, path, key) }
    | .item =>
      if root.opensItem path key then return { root, current := default, header := some (h, path, key) }
      else none

end Draft

def read? (text : String) : Option Toml := do
  let cs := match text.toList with
    | '\uFEFF' :: rest => rest
    | cs => cs
  let (ls, _) ← (lines (cs.length + 1)).run cs
  let d ← ls.foldlM Draft.step {}
  let t ← d.finish
  return t.toToml

end ArrayKernel.Toml
