import ArrayKernel.Digest.Blake3
import ArrayKernel.Number.Shortest
import ArrayKernel.Scope.Value
import ArrayKernel.Text.Quoted

/-!
A notation for values that shows all that they are made of, constructor by constructor. Two sets of
template values have one key when they are written the same in it.
-/

namespace ArrayKernel.Notation

open IR Surface Text

/-! ## Forms -/

def made (name : String) (args : List String) : String :=
  name ++ "(" ++ ", ".intercalate args ++ ")"

def parts (name : String) (fields : List (String × String)) : String :=
  name ++ " \x7b " ++ ", ".intercalate (fields.map fun (k, v) => k ++ ": " ++ v) ++ " \x7d"

def listed (items : List String) : String := "[" ++ ", ".intercalate items ++ "]"

def paired (a b : String) : String := "(" ++ a ++ ", " ++ b ++ ")"

def optional : Option String → String
  | some s => made "Some" [s]
  | none => "None"

/-! ## Numbers and types -/

def ofLiteral : Literal → String
  | .i32 v => made "I32" [toString v.toInt]
  | .u32 v => made "U32" [toString v.toNat]
  | .f32 v => made "F32" [v.text]

mutual

def ofTy : Ty → String
  | .scalar s => made "Scalar" [s.tag]
  | .vector s n => made "Vector" [s.tag, toString n.toNat]
  | .matrix r c => made "Matrix" ["F32", toString r.toNat, toString c.toNat]
  | .struct ms => made "Struct" [parts "StructTy" [("fields", listed (ofMembers ms))]]

def ofMembers : Members → List String
  | .nil => []
  | .cons name ty rest => paired (quoted name) (ofTy ty) :: ofMembers rest

end

def ofField (f : FieldInfo) : String :=
  parts "FieldInfo"
    [("id", made "FieldId" [toString f.id]), ("name", quoted f.name),
     ("shape", listed (f.shape.map fun n => toString n.toNat)), ("elem", ofTy f.elem)]

def ofFormat : TexelFormat → String
  | .rgba8unorm => "Rgba8Unorm"
  | .rgba16float => "Rgba16Float"
  | .rgba32float => "Rgba32Float"
  | .r32float => "R32Float"

def ofTexture (t : TextureInfo) : String :=
  parts "TextureInfo"
    [("id", made "TextureId" [toString t.id]), ("name", quoted t.name), ("dims", listed (t.dims.map toString)),
     ("format", ofFormat t.format), ("storage", toString t.storage)]

/-! ## Syntax trees -/

def ofSpan (s : Span) : String :=
  parts "Span" [("file_id", toString s.file), ("start", toString s.start), ("end", toString s.stop)]

def spanned (node : String) (s : Span) : String :=
  parts "Spanned" [("node", node), ("span", ofSpan s)]

def ofName (n : Name) : String := spanned (quoted n.text) n.span

def ofDeclKind : DeclKind → String
  | .let_ => "Let"
  | .const => "Const"
  | .var => "Var"

def ofAssignOp : AssignOp → String
  | .assign => "Assign"
  | .add => "Add"
  | .sub => "Sub"
  | .mul => "Mul"
  | .div => "Div"
  | .bitAnd => "BitAnd"
  | .bitOr => "BitOr"
  | .bitXor => "BitXor"

def ofUnOp : UnOp → String
  | .neg => "Neg"
  | .plus => "Plus"
  | .not => "Not"
  | .bitNot => "BitNot"

def ofBinOp : BinOp → String
  | .logicalOr => "LogicalOr"
  | .logicalAnd => "LogicalAnd"
  | .bitOr => "BitOr"
  | .bitXor => "BitXor"
  | .bitAnd => "BitAnd"
  | .eq => "Eq"
  | .ne => "Ne"
  | .lt => "Lt"
  | .le => "Le"
  | .gt => "Gt"
  | .ge => "Ge"
  | .shl => "Shl"
  | .shr => "Shr"
  | .add => "Add"
  | .sub => "Sub"
  | .mul => "Mul"
  | .div => "Div"
  | .mod => "Mod"
  | .pow => "Pow"
  | .floorDiv => "FloorDiv"
  | .matMul => "MatMul"

def ofBinding : Binding → String
  | .name n => made "Name" [ofName n]
  | .names ns => made "Destructure" [listed (ns.map ofName)]

def ofParam (p : Surface.Param) : String :=
  parts "Param" [("name", ofName p.name), ("annotation", optional (p.ascription.map ofName))]

mutual

def ofExpr : Expr → String
  | .int s n => spanned (made "Int" [toString n]) s
  | .float s v => spanned (made "Float" [v.text]) s
  | .bool s b => spanned (made "Bool" [toString b]) s
  | .var s n => spanned (made "Var" [quoted n]) s
  | .this s => spanned "This" s
  | .array s es => spanned (made "Array" [listed (ofExprs es)]) s
  | .object s ms => spanned (made "Object" [listed (ofObject ms)]) s
  | .member s b n => spanned (parts "Member" [("base", ofExpr b), ("name", ofName n)]) s
  | .index s b is => spanned (parts "Index" [("base", ofExpr b), ("indices", listed (ofExprs is))]) s
  | .call s f as => spanned (parts "Call" [("callee", ofExpr f), ("args", listed (ofExprs as))]) s
  | .unary s op e => spanned (parts "Unary" [("op", ofUnOp op), ("operand", ofExpr e)]) s
  | .binary s op l r => spanned (parts "Binary" [("op", ofBinOp op), ("lhs", ofExpr l), ("rhs", ofExpr r)]) s
  | .conditional s c y n =>
    spanned (parts "Conditional" [("cond", ofExpr c), ("then_expr", ofExpr y), ("else_expr", ofExpr n)]) s
  | .arrow s r => spanned (made "Arrow" [ofRoutine r]) s

def ofExprs : List Expr → List String
  | [] => []
  | e :: es => ofExpr e :: ofExprs es

def ofObject : List Member → List String
  | [] => []
  | .mk n e :: ms => paired (ofName n) (ofExpr e) :: ofObject ms

def ofStmt : Surface.Stmt → String
  | .decl s k n none =>
    spanned (parts "Let" [("kind", ofDeclKind k), ("name", ofName n), ("init", "None")]) s
  | .decl s k n (some e) =>
    spanned (parts "Let" [("kind", ofDeclKind k), ("name", ofName n), ("init", made "Some" [ofExpr e])]) s
  | .function s r => spanned (made "Function" [ofRoutine r]) s
  | .ifElse s c y none =>
    spanned (parts "If" [("cond", ofExpr c), ("then_branch", ofStmt y), ("else_branch", "None")]) s
  | .ifElse s c y (some n) =>
    spanned
      (parts "If" [("cond", ofExpr c), ("then_branch", ofStmt y), ("else_branch", made "Some" [ofStmt n])]) s
  | .forOf s b i body =>
    spanned (parts "For" [("binding", ofBinding b), ("iter", ofExpr i), ("body", ofStmt body)]) s
  | .while_ s c body => spanned (parts "While" [("cond", ofExpr c), ("body", ofStmt body)]) s
  | .break_ s => spanned "Break" s
  | .continue_ s => spanned "Continue" s
  | .return_ s none => spanned (made "Return" ["None"]) s
  | .return_ s (some e) => spanned (made "Return" [made "Some" [ofExpr e]]) s
  | .block s body => spanned (made "Block" [parts "Block" [("stmts", listed (ofStmts body))]]) s
  | .assign s op p v =>
    spanned (parts "Assign" [("op", ofAssignOp op), ("place", ofExpr p), ("value", ofExpr v)]) s
  | .expr s e => spanned (made "Expr" [ofExpr e]) s
  | .empty s => spanned "Empty" s

def ofStmts : List Surface.Stmt → List String
  | [] => []
  | s :: ss => ofStmt s :: ofStmts ss

def ofRoutine : Routine → String
  | .mk s name params bodySpan body =>
    parts "FnDecl"
      [("name", optional (name.map ofName)), ("params", listed (params.map ofParam)),
       ("body", spanned (parts "Block" [("stmts", listed (ofStmts body))]) bodySpan), ("span", ofSpan s)]

end

/-! ## Values -/

def ofOperand : Operand → String
  | .stmt id => made "Stmt" [made "StmtId" [toString id]]
  | .const l => made "Const" [ofLiteral l]

def ofPlace : Place → String
  | .local slot slotTy indices ty =>
    parts "Local"
      [("slot", made "StmtId" [toString slot]), ("slot_ty", ofTy slotTy),
       ("indices", listed (indices.map ofOperand)), ("ty", ofTy ty)]
  | .global f indices offset ty =>
    parts "Global"
      [("field", ofField f), ("indices", listed (indices.map ofOperand)), ("offset", ofOperand offset),
       ("ty", ofTy ty)]

def ofFunction (f : FunctionValue) : String :=
  parts "FunctionSource" [("name", quoted f.name), ("decl", ofRoutine f.routine)]

mutual

def ofValue : Value → String
  | .number l => made "Number" [ofLiteral l]
  | .array vs ty => parts "NumberArray" [("values", listed (vs.map ofLiteral)), ("ty", ofTy ty)]
  | .field f => made "Field" [ofField f]
  | .texture t => made "Texture" [ofTexture t]
  | .record r => made "Record" [parts "Record" [("entries", listed (ofRecord r))]]
  | .function f => made "Function" [ofFunction f]
  | .place p => made "Place" [ofPlace p]
  | .bound o ty => made "Bound" [ofOperand o, ofTy ty]
  | .arg index ty => parts "Arg" [("index", toString index), ("ty", ofTy ty)]

def ofRecord : Record → List String
  | .nil => []
  | .cons k v rest => paired (quoted k) (ofValue v) :: ofRecord rest

end

def ofBindings (bs : List (String × Value)) : String :=
  "\x7b" ++ ", ".intercalate (bs.map fun (k, v) => quoted k ++ ": " ++ ofValue v) ++ "\x7d"

end ArrayKernel.Notation

namespace ArrayKernel

def templateKey (templates : List (String × Value)) : String :=
  Digest.Blake3.fingerprint (Notation.ofBindings templates)

end ArrayKernel
