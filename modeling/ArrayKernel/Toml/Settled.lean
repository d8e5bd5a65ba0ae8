import ArrayKernel.Toml.Scalar

/-!
Values of which no shape is asked. The tables of such a value are ordered by key, and a table that
starts with the key of dates is a date.
-/

namespace ArrayKernel.Toml

def dateEntry? : List (String × Toml) → Option Toml
  | (k, v) :: _ => if k = dateKey then some v else none
  | [] => none

mutual

/-- A value with its tables in order. There is none if a table starts like a date and is none. -/
def settle? : Toml → Option Toml
  | array items => (settleItems? items).map array
  | table entries =>
    match dateEntry? entries with
    | some v => v.string?.bind fun s => (dateOf? s).map datetime
    | none => (settleEntries? entries).map ofEntries
  | t => some t

def settleItems? : List Toml → Option (List Toml)
  | [] => some []
  | t :: ts => do
    let t ← settle? t
    return t :: (← settleItems? ts)

def settleEntries? : List (String × Toml) → Option (List (String × Toml))
  | [] => some []
  | (k, t) :: es => do
    let t ← settle? t
    return (k, t) :: (← settleEntries? es)

end

end ArrayKernel.Toml
