import ArrayKernel.Surface.Grammar

/-!
A textual outline of a syntax tree: one parenthesised form per node, each head followed by its span.
-/

namespace ArrayKernel.Surface

namespace Outline

def at_ (s : Span) : String := s!"@{s.start}-{s.stop}"

def ofName (n : Name) : String := n.text ++ at_ n.span

/-- A form: its head, its span, and its parts, each after a blank. -/
def form (head : String) (s : Span) (parts : List String) : String :=
  "(" ++ head ++ at_ s ++ String.join (parts.map (" " ++ ·)) ++ ")"

def ofParam (p : Param) : String :=
  ofName p.name ++ (p.ascription.map fun a => ":" ++ ofName a).getD ""

def ofBinding : Binding → String
  | .name n => ofName n
  | .names ns => "[" ++ " ".intercalate (ns.map ofName) ++ "]"

def ofDeclKind : DeclKind → String
  | .let_ => "let"
  | .const => "const"
  | .var => "var"

mutual

def ofExpr : Expr → String
  | .int s n => form "int" s [toString n]
  | .float s v => form "float" s [Text.hex 16 v.bits.toNat]
  | .bool s b => form "bool" s [if b then "true" else "false"]
  | .var s n => form "var" s [n]
  | .this s => form "this" s []
  | .array s items => form "array" s (ofExprs items)
  | .object s members => form "object" s (ofMembers members)
  | .member s b n => form "member" s [ofExpr b, ofName n]
  | .index s b is => form "index" s (ofExpr b :: ofExprs is)
  | .call s f xs => form "call" s (ofExpr f :: ofExprs xs)
  | .unary s op e => form "unary" s [op.symbol, ofExpr e]
  | .binary s op l r => form "binary" s [op.symbol, ofExpr l, ofExpr r]
  | .conditional s c y n => form "cond" s [ofExpr c, ofExpr y, ofExpr n]
  | .arrow s r => form "arrow" s [ofRoutine r]

def ofExprs : List Expr → List String
  | [] => []
  | e :: es => ofExpr e :: ofExprs es

def ofMember : Member → String
  | .mk n e => "(" ++ ofName n ++ " " ++ ofExpr e ++ ")"

def ofMembers : List Member → List String
  | [] => []
  | m :: ms => ofMember m :: ofMembers ms

def ofExpr? : Option Expr → String
  | some e => ofExpr e
  | none => "_"

def ofStmt : Stmt → String
  | .decl s kind n init => form "let" s [ofDeclKind kind, ofName n, ofExpr? init]
  | .function s r => form "function" s [ofRoutine r]
  | .ifElse s c y n => form "if" s [ofExpr c, ofStmt y, ofStmt? n]
  | .forOf s b i body => form "for" s [ofBinding b, ofExpr i, ofStmt body]
  | .while_ s c body => form "while" s [ofExpr c, ofStmt body]
  | .break_ s => form "break" s []
  | .continue_ s => form "continue" s []
  | .return_ s v => form "return" s [ofExpr? v]
  | .block s body => form "block" s (ofStmts body)
  | .assign s op place value => form "assign" s [op.symbol, ofExpr place, ofExpr value]
  | .expr s e => form "expr" s [ofExpr e]
  | .empty s => form "empty" s []

def ofStmts : List Stmt → List String
  | [] => []
  | s :: ss => ofStmt s :: ofStmts ss

def ofStmt? : Option Stmt → String
  | some s => ofStmt s
  | none => "_"

def ofRoutine : Routine → String
  | .mk s n ps bodySpan body =>
    form "fn" s [(n.map ofName).getD "_", "(" ++ " ".intercalate (ps.map ofParam) ++ ")",
      form "block" bodySpan (ofStmts body)]

end

end Outline

def Routine.outline (r : Routine) : String := Outline.ofRoutine r

end ArrayKernel.Surface
