import ArrayKernel.IR.Stmt

/-!
The textual listing of a kernel: one line for each statement, two blanks of indent for each level.
-/

namespace ArrayKernel.IR

namespace Listing

def operands (os : List Operand) : String := ", ".intercalate (os.map Operand.text)

def textureTag : TextureOp → String
  | .load => "Load"
  | .store => "Store"
  | .sample => "Sample"

def indent (depth : Nat) : String := String.ofList (List.replicate (2 * depth) ' ')

def ofOp (id : StmtId) : Op → String
  | .alloca ty hint => s!"%{id} = alloca {ty.text} \"{hint}\""
  | .localLoad slot is ty => s!"%{id} = local_load %{slot}[{operands is}] : {ty.text}"
  | .localStore slot is v => s!"local_store %{slot}[{operands is}] <- {v.text}"
  | .globalPtr field is offset => s!"%{id} = global_ptr field{field}[{operands is}] + {offset.text}"
  | .globalLoad ptr ty => s!"%{id} = global_load %{ptr} : {ty.text}"
  | .globalStore ptr v => s!"global_store %{ptr} <- {v.text}"
  | .binary op l r _ ty => s!"%{id} = {l.text} {op.symbol} {r.text} : {ty.text}"
  | .unary op x ty => s!"%{id} = {op.text} {x.text} : {ty.text}"
  | .compose parts ty => s!"%{id} = compose({operands parts}) : {ty.text}"
  | .extract v is ty => s!"%{id} = extract {v.text}[{operands is}] : {ty.text}"
  | .loopControl .break_ => "break"
  | .loopControl .continue_ => "continue"
  | .atomic (.global _ ptr) k v ty => s!"%{id} = atomic_{k.tag} %{ptr}, {v.text} : {ty.text}"
  | .atomic (.local slot is) k v ty =>
    s!"%{id} = atomic_{k.tag} %{slot}[{operands is}], {v.text} : {ty.text}"
  | .call i args _ ty => s!"%{id} = call {i.name}({operands args}) : {ty.text}"
  | .texture t op c (some v) _ => s!"texture_{textureTag op} tex{t}[{c.text}] <- {v.text}"
  | .texture t op c none ty => s!"%{id} = texture_{textureTag op} tex{t}[{c.text}] : {ty.text}"
  | .ret v ty => s!"return {v.text} : {ty.text}"
  | .random ty => s!"%{id} = random : {ty.text}"
  | .argLoad index ty => s!"%{id} = arg {index} : {ty.text}"

mutual

def ofStmt (depth : Nat) : Stmt → List String
  | .op id o => [indent depth ++ ofOp id o]
  | .rangeFor id b e body _ =>
    [indent depth ++ s!"range_for %{id} in {b.text}..{e.text} \x7b"] ++ ofStmts (depth + 1) body
      ++ [indent depth ++ "\x7d"]
  | .while_ _ condBody c body =>
    [indent depth ++ "while \x7b"] ++ ofStmts (depth + 1) condBody
      ++ [indent depth ++ s!"\x7d ({c.text}) \x7b"] ++ ofStmts (depth + 1) body
      ++ [indent depth ++ "\x7d"]
  | .ifElse _ c yes no =>
    [indent depth ++ s!"if {c.text} \x7b"] ++ ofStmts (depth + 1) yes
      ++ (if no.isEmpty then [] else [indent depth ++ "\x7d else \x7b"] ++ ofStmts (depth + 1) no)
      ++ [indent depth ++ "\x7d"]

def ofStmts (depth : Nat) : List Stmt → List String
  | [] => []
  | s :: ss => ofStmt depth s ++ ofStmts depth ss

end

def ofTask (index : Nat) (t : Task) : List String :=
  (match t.loop with
    | none => [s!"task {index} serial \x7b"]
    | some l => ofStmts 1 l.prologue
        ++ [s!"task {index} parallel %{l.index} in {l.first.text}..{l.last.text} \x7b"])
    ++ ofStmts 1 t.body ++ ["\x7d"]

end Listing

open Listing in
def Kernel.lines (k : Kernel) : List String :=
  let params := ", ".intercalate (k.params.map fun p => s!"{p.name}: {p.ty.text}")
  let ret := (k.ret.map fun t => s!" -> {t.text}").getD ""
  [s!"kernel {k.name}({params}){ret}"]
    ++ k.fields.map (fun f => s!"  field {f.name} {f.shapeText} : {f.elem.text}")
    ++ k.shared.map (fun s => s!"  tmp %{s.slot} @ {s.offset} : {s.ty.text}")
    ++ k.tasks.zipIdx.flatMap fun (t, i) => ofTask i t

def Kernel.listing (k : Kernel) : String := String.join (k.lines.map (· ++ "\n"))

end ArrayKernel.IR
