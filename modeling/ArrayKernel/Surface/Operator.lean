import ArrayKernel.Surface.Lexeme

/-!
The operators of expressions and assignments, and how tightly they bind.
-/

namespace ArrayKernel.Surface

inductive BinOp where
  | logicalOr | logicalAnd
  | bitOr | bitXor | bitAnd
  | eq | ne | lt | le | gt | ge
  | shl | shr
  | add | sub | mul | div | mod | pow
  /-- Division that rounds toward negative infinity. It has no token; splitting a flat index makes
  it. -/
  | floorDiv
  /-- Product of matrices. It has no token; calls of `matmul` make it. -/
  | matMul
  deriving DecidableEq, Repr

namespace BinOp

/-- How tightly the operator holds its left and its right operand. A larger number holds tighter;
the power operator groups to the right, all others to the left. -/
def power : BinOp → Nat × Nat
  | logicalOr => (2, 3)
  | logicalAnd => (4, 5)
  | bitOr => (6, 7)
  | bitXor => (8, 9)
  | bitAnd => (10, 11)
  | eq | ne => (12, 13)
  | lt | le | gt | ge => (14, 15)
  | shl | shr => (16, 17)
  | add | sub => (18, 19)
  | mul | div | mod | floorDiv | matMul => (20, 21)
  | pow => (23, 22)

def isComparison : BinOp → Bool
  | eq | ne | lt | le | gt | ge => true
  | _ => false

def isLogical : BinOp → Bool
  | logicalAnd | logicalOr => true
  | _ => false

def isBitwise : BinOp → Bool
  | bitAnd | bitOr | bitXor | shl | shr => true
  | _ => false

def symbol : BinOp → String
  | logicalOr => "||"
  | logicalAnd => "&&"
  | bitOr => "|"
  | bitXor => "^"
  | bitAnd => "&"
  | eq => "=="
  | ne => "!="
  | lt => "<"
  | le => "<="
  | gt => ">"
  | ge => ">="
  | shl => "<<"
  | shr => ">>"
  | add => "+"
  | sub => "-"
  | mul => "*"
  | div => "/"
  | mod => "%"
  | pow => "**"
  | floorDiv => "//"
  | matMul => "@"

def all : List BinOp :=
  [logicalOr, logicalAnd, bitOr, bitXor, bitAnd, eq, ne, lt, le, gt, ge, shl, shr, add, sub, mul, div, mod, pow,
   floorDiv, matMul]

def ofSymbol? (s : String) : Option BinOp := all.find? (·.symbol == s)

def ofToken? : Symbol → Option BinOp
  | .pipePipe => some logicalOr
  | .ampAmp => some logicalAnd
  | .pipe => some bitOr
  | .caret => some bitXor
  | .amp => some bitAnd
  | .equal => some eq
  | .notEqual => some ne
  | .less => some lt
  | .lessEqual => some le
  | .greater => some gt
  | .greaterEqual => some ge
  | .shiftLeft => some shl
  | .shiftRight => some shr
  | .plus => some add
  | .minus => some sub
  | .star => some mul
  | .slash => some div
  | .percent => some mod
  | .starStar => some pow
  | _ => none

end BinOp

inductive UnOp where
  | neg | plus | not | bitNot
  deriving DecidableEq, Repr

namespace UnOp

/-- How tightly an operator in front of its operand holds it: looser than a power, so `-x ** 2` is
`-(x ** 2)`. -/
def power : Nat := 22

def symbol : UnOp → String
  | neg => "-"
  | plus => "+"
  | not => "!"
  | bitNot => "~"

def ofToken? : Symbol → Option UnOp
  | .minus => some neg
  | .plus => some plus
  | .bang => some not
  | .tilde => some bitNot
  | _ => none

end UnOp

inductive AssignOp where
  | assign | add | sub | mul | div | bitAnd | bitOr | bitXor
  deriving DecidableEq, Repr

namespace AssignOp

def binary? : AssignOp → Option BinOp
  | assign => none
  | add => some .add
  | sub => some .sub
  | mul => some .mul
  | div => some .div
  | bitAnd => some .bitAnd
  | bitOr => some .bitOr
  | bitXor => some .bitXor

def symbol : AssignOp → String
  | assign => "="
  | add => "+="
  | sub => "-="
  | mul => "*="
  | div => "/="
  | bitAnd => "&="
  | bitOr => "|="
  | bitXor => "^="

def ofToken? : Symbol → Option AssignOp
  | .assign => some assign
  | .plusAssign => some add
  | .minusAssign => some sub
  | .starAssign => some mul
  | .slashAssign => some div
  | .ampAssign => some bitAnd
  | .pipeAssign => some bitOr
  | .caretAssign => some bitXor
  | _ => none

end AssignOp

end ArrayKernel.Surface
