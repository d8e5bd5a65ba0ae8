import ArrayKernel.Scope.Value

/-!
The names that a kernel sees. A scope is a table of values, sorted by name, and perhaps a receiver,
which `this` stands for.
-/

namespace ArrayKernel

structure Scope where
  table : List (String × Value) := []
  receiver : Option Value := none

namespace Scope

instance : Inhabited Scope := ⟨{}⟩

/-- Puts a value into a sorted table, in place of any other of that name. -/
def insertInto (name : String) (value : Value) : List (String × Value) → List (String × Value)
  | [] => [(name, value)]
  | (k, v) :: rest =>
    if name < k then (name, value) :: (k, v) :: rest
    else if name = k then (name, value) :: rest
    else (k, v) :: insertInto name value rest

def insert (s : Scope) (name : String) (value : Value) : Scope :=
  { s with table := insertInto name value s.table }

def get? (s : Scope) (name : String) : Option Value := (s.table.find? (·.1 == name)).map Prod.snd

theorem find?_insertInto (name other : String) (v : Value) (t : List (String × Value)) :
    ((insertInto name v t).find? (·.1 == other)).map Prod.snd
      = if name = other then some v else (t.find? (·.1 == other)).map Prod.snd := by
  induction t with
  | nil => by_cases h : name = other <;> simp [insertInto, h]
  | cons p rest ih =>
    obtain ⟨k, w⟩ := p
    unfold insertInto
    split
    · by_cases h : name = other <;> simp [h]
    · split
      · subst name
        by_cases h : k = other <;> simp [h]
      · by_cases hk : k = other
        · subst hk
          simp_all
        · simp [hk, ih]

/-- A new binding is found under its name, and hides nothing else. -/
@[simp] theorem get?_insert (s : Scope) (name other : String) (v : Value) :
    (s.insert name v).get? other = if name = other then some v else s.get? other :=
  find?_insertInto name other v s.table

def contains (s : Scope) (name : String) : Bool := s.table.any (·.1 == name)

def size (s : Scope) : Nat := s.table.length

def isEmpty (s : Scope) : Bool := s.table.isEmpty

def names (s : Scope) : List String := s.table.map Prod.fst

def clear (s : Scope) : Scope := { s with table := [] }

def follow : Value → List String → Option Value
  | v, [] => some v
  | .record r, name :: rest => (r.get? name).bind (follow · rest)
  | _, _ :: _ => none

/-- The value at a dotted path, given by its segments. The word `this` at its head is the receiver.
-/
def resolve? (s : Scope) : List String → Option Value
  | [] => none
  | head :: rest => (if head = "this" then s.receiver else s.get? head).bind (follow · rest)

def resolvePath? (s : Scope) (path : String) : Option Value :=
  s.resolve? ((path.toList.splitOn '.').map String.ofList)

/-- The names of both; where both have a name, and for the receiver, the second wins. -/
def merge (a b : Scope) : Scope :=
  { table := b.table.foldl (fun t (k, v) => insertInto k v t) a.table
    receiver := b.receiver.or a.receiver }

def globals (s : Scope) : Scope :=
  { table := s.table.filter fun (_, v) => !v.isTransient }

def functions (s : Scope) : List (String × Value) := s.table.filter fun (_, v) => v.isFunction

/-- Inserts a field into a list sorted by id, after those of the same id. -/
def insertField (f : FieldInfo) : List FieldInfo → List FieldInfo
  | [] => [f]
  | g :: rest => if f.id < g.id then f :: g :: rest else g :: insertField f rest

def dropRepeated : List FieldInfo → List FieldInfo
  | f :: g :: rest => if f.id = g.id then dropRepeated (f :: rest) else f :: dropRepeated (g :: rest)
  | fs => fs
termination_by fs => fs.length

def fields (s : Scope) : List FieldInfo :=
  let all := s.table.filterMap fun
    | (_, .field f) => some f
    | _ => none
  dropRepeated (all.foldl (fun fs f => insertField f fs) [])

end Scope

end ArrayKernel
