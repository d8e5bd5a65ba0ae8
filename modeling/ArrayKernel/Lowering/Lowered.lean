import ArrayKernel.Lowering.Builder

/-!
What an expression lowers to.
-/

namespace ArrayKernel.Lowering

open IR

mutual

inductive Lowered where
  | value (o : Operand) (ty : Ty)
  | place (p : Place)
  | static (v : Value)
  | record (members : Entries)
  | void

inductive Entries where
  | nil
  | cons (name : String) (value : Lowered) (rest : Entries)

end

namespace Entries

def ofList : List (String × Lowered) → Entries
  | [] => nil
  | (k, v) :: rest => cons k v (ofList rest)

def get? (name : String) : Entries → Option Lowered
  | nil => none
  | cons k v rest => if k = name then some v else rest.get? name

end Entries

namespace Lowered

def kindName : Lowered → String
  | value .. => "value"
  | place _ => "variable"
  | static v => v.kindName
  | record _ => "struct"
  | void => "void"

def static? : Lowered → Option Value
  | static v => some v
  | value (.const l) _ => some (.number l)
  | _ => none

end Lowered

/-- What a scope value lowers to. An argument is loaded each time it is named. -/
def ofValue : Value → Lower Lowered
  | .place p => pure (.place p)
  | .bound o ty => pure (.value o ty)
  | .arg index ty => return .value (← emitValue (.argLoad index ty)) ty
  | v => pure (.static v)

/-- An argument of a call: what it lowered to, and where it stands. -/
structure Arg where
  lowered : Lowered
  span : Span

end ArrayKernel.Lowering
