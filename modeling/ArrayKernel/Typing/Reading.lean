import ArrayKernel.Number.Reading
import ArrayKernel.Text.Blank
import ArrayKernel.Typing.Rules

/-!
Reading the names of types: `f32`, `vec3<f32>`, `vec3f`, `mat2x3`.
-/

namespace ArrayKernel.Ty

open Text Number

def readVectorScalar? (cs : List Char) : Option Scalar :=
  match String.ofList cs with
  | "" | "f" => some .f32
  | "i" => some .i32
  | "u" => some .u32
  | _ => do
    let inner ← beforeEnd? ['>'] (← afterStart? ['<'] cs)
    Scalar.ofName? (String.ofList inner)

/-- A vector type after `vec`: one digit, then the component type. -/
def readVector? : List Char → Option Ty
  | d :: tail =>
    if d.isDigit then do
      let s ← readVectorScalar? tail
      let n ← Dim.ofNat? (d.toNat - 48)
      return vector s n
    else none
  | [] => none

/-- A matrix type after `mat`: rows, `x`, columns, and perhaps the component type. -/
def readMatrix? (cs : List Char) : Option Ty := do
  let body := ((beforeEnd? "<f32>".toList cs).or (beforeEnd? ['f'] cs)).getD cs
  let (rows, cols) ← splitAt? 'x' body
  let r ← Dim.ofNat? (← readNat? rows)
  let c ← Dim.ofNat? (← readNat? cols)
  return matrix r c

def read? (text : String) : Option Ty :=
  let cs := trim text.toList
  match Scalar.ofName? (String.ofList cs) with
  | some s => some (scalar s)
  | none =>
    match afterStart? "vec".toList cs with
    | some rest => readVector? rest
    | none => (afterStart? "mat".toList cs).bind readMatrix?

end ArrayKernel.Ty
