import ArrayKernel.Number.Binary64
import ArrayKernel.Toml.Date

/-!
The values of a TOML document.
-/

namespace ArrayKernel

open Number

inductive Toml where
  | string (s : String)
  | integer (v : Int)
  | float (v : Binary64)
  | boolean (b : Bool)
  | datetime (d : Toml.DateTime)
  | array (items : List Toml)
  | table (entries : List (String × Toml))

namespace Toml

instance : Inhabited Toml := ⟨datetime default⟩

def typeName : Toml → String
  | string _ => "string"
  | integer _ => "integer"
  | float _ => "float"
  | boolean _ => "boolean"
  | datetime _ => "datetime"
  | array _ => "array"
  | table _ => "table"

/-- Inserts an entry into a list sorted by key, in place of any other of that key. -/
def insertEntry {α : Type} (key : String) (v : α) : List (String × α) → List (String × α)
  | [] => [(key, v)]
  | (k, w) :: rest =>
    if key < k then (key, v) :: (k, w) :: rest
    else if key = k then (key, v) :: rest
    else (k, w) :: insertEntry key v rest

def sortEntries {α : Type} (entries : List (String × α)) : List (String × α) :=
  entries.foldl (fun es (k, v) => insertEntry k v es) []

def ofEntries (entries : List (String × Toml)) : Toml := table (sortEntries entries)

/-- The key of the one entry of a date that is taken for a table. -/
def dateKey : String := "$__toml_private_datetime"

/-! ## Shapes -/

def string? : Toml → Option String
  | string s => some s
  | _ => none

def bool? : Toml → Option Bool
  | boolean b => some b
  | _ => none

def natBelow? (bound : Nat) : Toml → Option Nat
  | integer v => if 0 ≤ v ∧ v.toNat < bound then some v.toNat else none
  | _ => none

def float? : Toml → Option Binary64
  | float v => some v
  | integer v => some (.ofInt v)
  | _ => none

def list? {α : Type} (item? : Toml → Option α) : Toml → Option (List α)
  | array items => items.mapM item?
  | _ => none

/-- The entries of a table. A date counts as a table with its text as the only entry. -/
def entries? : Toml → Option (List (String × Toml))
  | table entries => some entries
  | datetime d => some [(dateKey, string d.text)]
  | _ => none

def map? {α : Type} (item? : Toml → Option α) (t : Toml) : Option (List (String × α)) := do
  let items ← (← t.entries?).mapM fun (k, v) => (item? v).map (k, ·)
  return sortEntries items

/-- The entries of a record with the given keys, in their order: a table that has no other key, or
an array of the leading entries. -/
def record? (keys : List String) : Toml → Option (List (Option Toml))
  | table entries =>
    if entries.all fun (k, _) => keys.contains k then some (keys.map fun k => List.lookup k entries) else none
  | array items => some (keys.mapIdx fun i _ => items[i]?)
  | _ => none

/-- An entry that may be missing, in the shape that it has to have. -/
def optional? {α : Type} (item? : Toml → Option α) : Option Toml → Option (Option α)
  | none => some none
  | some v => (item? v).map some

end Toml

end ArrayKernel
