import Mathlib.Algebra.Group.Nat.Defs
import ArrayKernel.Lowering.Loop
import ArrayKernel.Proofs.Meaning.Control
import ArrayKernel.Proofs.Meaning.Operators

/-!
# What the language means

The part of the language that works on integers alone (`integerStmt`). A run keeps the variables on
a stack with the newest on top; leaving a block takes off what was declared in it.
-/

namespace ArrayKernel.Meaning

open Lowering Surface

/-! ## 1. Variables -/

abbrev Env := List (String × Int32)

def assign (x : String) (v : Int32) : Env → Env
  | [] => []
  | (y, w) :: rest => if y = x then (y, v) :: rest else (y, w) :: assign x v rest

/-- Leaves a block: only the variables from before it are left, with the values that they now have.
-/
def leave (before : Env) (r : Result Env) : Result Env :=
  r.map fun (ρ, out) => (ρ.drop (ρ.length - before.length), out)

/-! ## 2. Expressions -/

def eval (zero : ByZero) (ρ : Env) : Expr → Option Int32
  | .int _ n => if n < 2 ^ 31 then some (.ofNat n) else none
  | .bool _ b => some (truth b)
  | .var _ x => ρ.lookup x
  | .unary _ op e => (eval zero ρ e).map (unary op)
  | .binary _ op l r => (eval zero ρ l).bind fun x => (eval zero ρ r).bind fun y => binary zero op x y
  | .conditional _ c yes no => (eval zero ρ c).bind fun v => if v ≠ 0 then eval zero ρ yes else eval zero ρ no
  | _ => none

def assigned (zero : ByZero) (op : AssignOp) (ρ : Env) (x : String) (e : Expr) : Option Int32 :=
  (ρ.lookup x).bind fun old => (eval zero ρ e).bind fun v =>
    match op.binary? with
    | none => some v
    | some bin => binary zero bin old v

/-! ## 3. Loops over ranges -/

def rangeArgs? : Option (String × List Expr) → Option (List Expr)
  | some (path, args) => if path = "range" ∨ path = "ti.range" then some args else none
  | none => none

/-- What a loop iterates over, if it is a range: whether the loop is unrolled, and the arguments of
the range. -/
def loopOver? (iter : Expr) : Option (Bool × List Expr) :=
  match Iteration.callOf? iter with
  | some ("static", [inner]) | some ("ti.static", [inner]) =>
    (rangeArgs? (Iteration.callOf? inner)).map (true, ·)
  | call => (rangeArgs? call).map (false, ·)

def loopVar? : Binding → Option String
  | .name n => some n.text
  | .names [n] => some n.text
  | .names _ => none

def bounds (zero : ByZero) (ρ : Env) : List Expr → Option (Int32 × Int32)
  | [last] => (eval zero ρ last).map (0, ·)
  | [first, last] => (eval zero ρ first).bind fun i => (eval zero ρ last).map (i, ·)
  | _ => none

/-! ## 4. Statements -/

mutual

/-- The run of a statement. Fuel bounds the iterations of the loops that have a condition. -/
def exec (zero : ByZero) (fuel : Nat) : Surface.Stmt → Env → Result Env
  | .decl _ _ name (some init), ρ => (eval zero ρ init).map fun v => ((name.text, v) :: ρ, .normal)
  | .assign _ op (.var _ x) e, ρ => (assigned zero op ρ x e).map fun v => (assign x v ρ, .normal)
  | .ifElse _ c yes none, ρ =>
    (eval zero ρ c).bind fun v => if v ≠ 0 then leave ρ (exec zero fuel yes ρ) else some (ρ, .normal)
  | .ifElse _ c yes (some no), ρ =>
    (eval zero ρ c).bind fun v =>
      if v ≠ 0 then leave ρ (exec zero fuel yes ρ) else leave ρ (exec zero fuel no ρ)
  | .while_ _ c body, ρ =>
    let test (ρ : Env) : Option (Env × Bool) := (eval zero ρ c).map fun v => (ρ, decide (v ≠ 0))
    ended (whileLoop test (fun ρ => leave ρ (exec zero fuel body ρ)) fuel ρ)
  | .forOf _ binding iter body, ρ =>
    match loopOver? iter, loopVar? binding with
    | some (_, args), some x =>
      (bounds zero ρ args).bind fun (first, last) =>
        ended (rangeLoop (fun i ρ => leave ρ (exec zero fuel body ((x, i) :: ρ))) (rangeCount first last) first ρ)
    | _, _ => none
  | .break_ _, ρ => some (ρ, .broke)
  | .continue_ _, ρ => some (ρ, .continued)
  | .block _ body, ρ => leave ρ (execAll zero fuel body ρ)
  | .expr _ e, ρ => (eval zero ρ e).map fun _ => (ρ, .normal)
  | .empty _, ρ => some (ρ, .normal)
  | _, _ => none

def execAll (zero : ByZero) (fuel : Nat) : List Surface.Stmt → Env → Result Env
  | [], ρ => some (ρ, .normal)
  | s :: ss, ρ => andThen (exec zero fuel s ρ) fun ρ => execAll zero fuel ss ρ

end

def Evaluates (zero : ByZero) (s : Surface.Stmt) (ρ ρ' : Env) (out : Outcome) : Prop :=
  ∃ fuel, exec zero fuel s ρ = some (ρ', out)

/-! ## 5. The statements of integers -/

/-- Whether an expression is made of integers alone, the given names being those of integer
variables. -/
def integerExpr (names : List String) : Expr → Bool
  | .int _ n => n < 2 ^ 31
  | .bool .. => true
  | .var _ x => names.contains x
  | .unary _ _ e => integerExpr names e
  | .binary _ op l r => op != .div && op != .pow && integerExpr names l && integerExpr names r
  | .conditional _ c yes no => integerExpr names c && integerExpr names yes && integerExpr names no
  | _ => false

def declared : Surface.Stmt → List String
  | .decl _ _ name _ => [name.text]
  | _ => []

mutual

/-- Whether a statement is made of integers alone, the given names being those of integer variables.
-/
def integerStmt (names : List String) : Surface.Stmt → Bool
  | .decl _ _ _ (some init) => integerExpr names init
  | .assign _ op (.var _ x) e => op != .div && names.contains x && integerExpr names e
  | .ifElse _ c yes none => integerExpr names c && integerStmt names yes
  | .ifElse _ c yes (some no) => integerExpr names c && integerStmt names yes && integerStmt names no
  | .while_ _ c body => integerExpr names c && integerStmt names body
  | .forOf _ binding iter body =>
    match loopOver? iter, loopVar? binding with
    | some (_, args), some x => args.all (integerExpr names) && integerStmt (x :: names) body
    | _, _ => false
  | .block _ body => integerStmts names body
  | .expr _ e => integerExpr names e
  | .break_ _ | .continue_ _ | .empty _ => true
  | _ => false

def integerStmts (names : List String) : List Surface.Stmt → Bool
  | [] => true
  | s :: ss => integerStmt names s && integerStmts (declared s ++ names) ss

end

end ArrayKernel.Meaning
