import ArrayKernel.Surface.Operator
import ArrayKernel.Surface.Span

/-!
Syntax trees. Every node carries the span of the text that it was read from.
-/

namespace ArrayKernel.Surface

open Number

inductive DeclKind where
  | let_ | const | var
  deriving DecidableEq, Repr

structure Param where
  name : Name
  ascription : Option Name
  deriving DecidableEq, Repr

/-- What a loop binds: one name, or one name for each component of a multi-index. -/
inductive Binding where
  | name (n : Name)
  | names (ns : List Name)
  deriving DecidableEq, Repr

mutual

inductive Expr where
  | int (span : Span) (value : Nat)
  | float (span : Span) (value : Binary64)
  | bool (span : Span) (value : Bool)
  | var (span : Span) (name : String)
  | this (span : Span)
  /-- A vector, or a matrix when the items are arrays. -/
  | array (span : Span) (items : List Expr)
  | object (span : Span) (members : List Member)
  | member (span : Span) (base : Expr) (name : Name)
  | index (span : Span) (base : Expr) (indices : List Expr)
  | call (span : Span) (callee : Expr) (args : List Expr)
  | unary (span : Span) (op : UnOp) (operand : Expr)
  | binary (span : Span) (op : BinOp) (lhs rhs : Expr)
  | conditional (span : Span) (cond yes no : Expr)
  | arrow (span : Span) (routine : Routine)

inductive Member where
  | mk (name : Name) (value : Expr)

inductive Stmt where
  | decl (span : Span) (kind : DeclKind) (name : Name) (init : Option Expr)
  | function (span : Span) (routine : Routine)
  | ifElse (span : Span) (cond : Expr) (yes : Stmt) (no : Option Stmt)
  | forOf (span : Span) (binding : Binding) (iter : Expr) (body : Stmt)
  | while_ (span : Span) (cond : Expr) (body : Stmt)
  | break_ (span : Span)
  | continue_ (span : Span)
  | return_ (span : Span) (value : Option Expr)
  | block (span : Span) (body : List Stmt)
  | assign (span : Span) (op : AssignOp) (place value : Expr)
  | expr (span : Span) (value : Expr)
  | empty (span : Span)

inductive Routine where
  | mk (span : Span) (name : Option Name) (params : List Param) (bodySpan : Span) (body : List Stmt)

end

instance : Inhabited Expr := ⟨.int default 0⟩
instance : Inhabited Stmt := ⟨.empty default⟩
instance : Inhabited Routine := ⟨.mk default none [] default []⟩

namespace Member

def name : Member → Name
  | .mk n _ => n

def value : Member → Expr
  | .mk _ e => e

end Member

namespace Routine

def span : Routine → Span
  | .mk s _ _ _ _ => s

def name : Routine → Option Name
  | .mk _ n _ _ _ => n

def params : Routine → List Param
  | .mk _ _ ps _ _ => ps

def bodySpan : Routine → Span
  | .mk _ _ _ s _ => s

def body : Routine → List Stmt
  | .mk _ _ _ _ b => b

end Routine

namespace Expr

def span : Expr → Span
  | int s _ | float s _ | bool s _ | var s _ | this s | array s _ | object s _ | member s _ _ | index s _ _
  | call s _ _ | unary s _ _ | binary s _ _ _ | conditional s _ _ _ | arrow s _ => s

/-- The same expression at another place, as parentheses give it. -/
def withSpan (s : Span) : Expr → Expr
  | int _ v => int s v
  | float _ v => float s v
  | bool _ v => bool s v
  | var _ n => var s n
  | this _ => this s
  | array _ xs => array s xs
  | object _ ms => object s ms
  | member _ b n => member s b n
  | index _ b is => index s b is
  | call _ f xs => call s f xs
  | unary _ op e => unary s op e
  | binary _ op l r => binary s op l r
  | conditional _ c y n => conditional s c y n
  | arrow _ r => arrow s r

def kindName : Expr → String
  | int .. | float .. => "number literal"
  | bool .. => "boolean literal"
  | var .. => "identifier"
  | this .. => "this"
  | array .. => "array literal"
  | object .. => "object literal"
  | member .. => "member access"
  | index .. => "index expression"
  | call .. => "call expression"
  | unary .. => "unary expression"
  | binary .. => "binary expression"
  | conditional .. => "conditional expression"
  | arrow .. => "arrow function"

/-- The segments of a dotted path such as `a.b.c`, if the expression is one. -/
def path? : Expr → Option (List String)
  | var _ n => some [n]
  | this _ => some ["this"]
  | member _ b n => b.path?.map (· ++ [n.text])
  | _ => none

end Expr

namespace Stmt

def span : Stmt → Span
  | decl s _ _ _ | function s _ | ifElse s _ _ _ | forOf s _ _ _ | while_ s _ _ | break_ s | continue_ s | return_ s _
  | block s _ | assign s _ _ _ | expr s _ | empty s => s

def kindName : Stmt → String
  | decl .. => "variable declaration"
  | function .. => "function declaration"
  | ifElse .. => "if statement"
  | forOf .. => "for statement"
  | while_ .. => "while statement"
  | break_ .. => "break statement"
  | continue_ .. => "continue statement"
  | return_ .. => "return statement"
  | block .. => "block"
  | assign .. => "assignment"
  | expr .. => "expression statement"
  | empty .. => "empty statement"

def isEmpty : Stmt → Bool
  | empty .. => true
  | _ => false

end Stmt

end ArrayKernel.Surface
