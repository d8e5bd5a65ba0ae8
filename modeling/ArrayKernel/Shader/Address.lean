import ArrayKernel.IR.Stmt

/-!
Word addresses: sums of terms that only the device knows, and a constant.
-/

namespace ArrayKernel.Shader

open IR

structure Address where
  terms : List String := []
  offset : Int64 := 0
  deriving DecidableEq, Repr

namespace Address

def const (offset : Int64) : Address := { offset }

def add (a : Address) (o : Operand) (scale : Int64) (text : String) : Address :=
  match o.const?.bind Literal.toInt? with
  | some v => { a with offset := a.offset + Int64.ofInt v * scale }
  | none =>
    { a with terms := a.terms ++ [if scale = 1 then text else s!"{text} * {scale.toInt}"] }

def dynamic? (a : Address) : Option String :=
  if a.terms.isEmpty then none else some (" + ".intercalate a.terms)

def word (a : Address) (k : Nat) : String :=
  let offset := a.offset + Int64.ofNat k
  match a.dynamic? with
  | none => toString offset.toInt
  | some base =>
    if offset = 0 then base
    else if offset < 0 then s!"{base} - {(-offset).toInt}"
    else s!"{base} + {offset.toInt}"

end Address

end ArrayKernel.Shader
