import ArrayKernel.Surface.Grammar

/-!
# The rules of the grammar

The rules are steps that are put together from smaller ones, with the calls of other rules left open
(`Rules.unfold`).
-/

namespace ArrayKernel.Surface

/-! ## 1. Reading steps -/

abbrev Read (α : Type) : Type := (c : Cursor) → Parsed c α

namespace Read

variable {α β : Type}

theorem stays {c : Cursor} : c.size ≤ c.size := Nat.le_refl _

instance : Monad Read where
  pure a c := ⟨a, c, stays⟩
  bind x f c :=
    match x c with
    | ⟨a, c₁, h₁⟩ => ⟨(f a c₁).value, (f a c₁).next, Nat.le_trans (f a c₁).le h₁⟩

theorem bind_of {x : Read α} {f : α → Read β} {c c1 : Cursor} {a : α} {h1 : c1.size ≤ c.size}
    (hx : x c = ⟨a, c1, h1⟩) :
    (x >>= f) c = ⟨(f a c1).value, (f a c1).next, Nat.le_trans (f a c1).le h1⟩ := by
  show (match x c with | ⟨a, c1, h1⟩ => ⟨(f a c1).value, (f a c1).next, _⟩ : Parsed c β) = _
  rw [hx]

def view (f : Cursor → α) : Read α := fun c => ⟨f c, c, stays⟩

def move (f : (c : Cursor) → Cursor.Onward c) : Read Unit := fun c => ⟨(), (f c).1, (f c).2⟩

/-- Takes a token of some kind if one comes next, and goes on with what it is. -/
def ifTake (f : (c : Cursor) → Option (β × Cursor.Past c)) (yes : β → Read α) (no : Read α) :
    Read α := fun c =>
  match f c with
  | some (b, ⟨c₁, h₁⟩) => ⟨(yes b c₁).value, (yes b c₁).next, Nat.le_trans (yes b c₁).le (Nat.le_of_lt h₁)⟩
  | none => no c

/-- Takes the next token if it is known how to go on from it. -/
def ifKnown (f : Cursor → Token → Option (Read α)) (no : Read α) : Read α := fun c =>
  match c.next? with
  | some (t, ⟨c₁, h₁⟩) =>
    match f c t with
    | some x => ⟨(x c₁).value, (x c₁).next, Nat.le_trans (x c₁).le (Nat.le_of_lt h₁)⟩
    | none => no c
  | none => no c

def ifEat (l : Lexeme) (yes no : Read α) : Read α := fun c =>
  match c.eat? l with
  | some ⟨c₁, h₁⟩ => ⟨(yes c₁).value, (yes c₁).next, Nat.le_trans (yes c₁).le (Nat.le_of_lt h₁)⟩
  | none => no c

def ifAt (p : Cursor → Bool) (yes no : Read α) : Read α := fun c => if p c then yes c else no c

/-- Opens one more level if there may be one. -/
def ifEnter (yes no : Read α) : Read α := fun c =>
  match c.enter with
  | ⟨allowed, c₁, h₁, _⟩ =>
    if allowed then ⟨(yes c₁).value, (yes c₁).next, Nat.le_trans (yes c₁).le (Nat.le_of_eq h₁)⟩
    else ⟨(no c₁).value, (no c₁).next, Nat.le_trans (no c₁).le (Nat.le_of_eq h₁)⟩

def here : Read Span := view Cursor.here

def behind : Read Span := view Cursor.behind

def expect (s : Symbol) : Read Unit := move (·.expect s)

def complainIf (bad : Cursor → Bool) (f : Fault) : Read Unit := move fun c => c.complainIf (bad c) f

/-- Reads something, and takes the next token if that took none. -/
def progressing (x : Read α) : Read α := fun c =>
  if h : 0 < c.size then
    ⟨(x c).value, (Cursor.progress c (x c).next (x c).le h).1, Nat.le_of_lt (Cursor.progress c (x c).next (x c).le h).2⟩
  else x c

end Read

/-! ## 2. Rules -/

inductive Rule where
  | expr
  | binary (least : Nat)
  | operators (least : Nat) (lhs : Expr)
  | unary
  | suffixes (e : Expr)
  | primary
  | list (close : Symbol)
  | members
  | memberValue (n : Name)
  | arrow (start : Span) (params : List Param)
  | function (start : Span)
  | block
  | stmts
  | stmt
  | stmtBody
  | decl (kind : DeclKind)
  | init
  | ifElse
  | forOf
  | whileLoop
  | nested
  | exprStmt

namespace Rule

abbrev Out : Rule → Type
  | expr => Expr
  | binary _ => Expr
  | operators _ _ => Expr
  | unary => Expr
  | suffixes _ => Expr
  | primary => Expr
  | list _ => List Expr
  | members => List Member
  | memberValue _ => Expr
  | arrow _ _ => Routine
  | function _ => Routine
  | block => Span × List Stmt
  | stmts => List Stmt
  | stmt => Stmt
  | stmtBody => Span → Stmt
  | decl _ => Span → Stmt
  | init => Option Expr
  | ifElse => Span → Stmt
  | forOf => Span → Stmt
  | whileLoop => Span → Stmt
  | nested => Stmt
  | exprStmt => Span → Stmt

/-- The level of a rule: a rule calls one of the same or a higher level only after it has taken a
token. -/
def level : Rule → Nat
  | operators _ _ | suffixes _ | primary => 0
  | unary => 1
  | binary _ => 2
  | expr => 3
  | list _ | memberValue _ | exprStmt => 4
  | members | stmtBody => 5
  | stmt => 6
  | stmts | nested => 7
  | block | init => 8
  | arrow _ _ | function _ | decl _ | ifElse | forOf | whileLoop => 9

/-- The tokens that a rule has before it. A block counts from behind its brace. -/
def room (r : Rule) (c : Cursor) : Nat :=
  match r with
  | block => c.bodySize
  | _ => c.size

def measure (r : Rule) (c : Cursor) : Nat := 16 * r.room c + r.level

theorem room_le (r : Rule) (c : Cursor) : r.room c ≤ c.size := by
  cases r with
  | block => exact c.bodySize_le
  | _ => exact Nat.le_refl _

theorem level_lt (r : Rule) : r.level < 16 := by
  cases r <;> simp only [level] <;> omega

variable {r r' : Rule} {c c' : Cursor}

theorem measure_lt_of_level (h : c'.size ≤ r.room c) (hlevel : r'.level < r.level) :
    r'.measure c' < r.measure c := by
  have := r'.room_le c'
  unfold measure
  omega

theorem measure_lt_of_size (h : c'.size < r.room c) : r'.measure c' < r.measure c := by
  have := r'.room_le c'
  have := r'.level_lt
  unfold measure
  omega

end Rule

abbrev Rules : Type := (r : Rule) → Read r.Out

namespace Rules

open Read

/-- The primary expression that a token starts, if there is one. An arrow is ahead or not. -/
def primary (R : Rules) (arrow : Bool) : Token → Option (Read Expr)
  | ⟨.integer n, start⟩ => some (return .int start n)
  | ⟨.float v, start⟩ => some (return .float start v)
  | ⟨.keyword .true_, start⟩ => some (return .bool start true)
  | ⟨.keyword .false_, start⟩ => some (return .bool start false)
  | ⟨.keyword .this, start⟩ => some (return .this start)
  | ⟨.identifier n, start⟩ =>
    if arrow then some do
      let r ← R (.arrow start [⟨⟨n, start⟩, none⟩])
      return .arrow r.span r
    else some (return .var start n)
  | ⟨.keyword .function, start⟩ => some do
    let r ← R (.function start)
    return .arrow r.span r
  | ⟨.symbol .leftParen, start⟩ =>
    if arrow then some do
      let ps ← parseParams
      let r ← R (.arrow start ps)
      return .arrow r.span r
    else some do
      let inner ← R .expr
      complainIf (·.atSymbol .comma) .commaExpression
      expect .rightParen
      return inner.withSpan (start.merge (← behind))
  | ⟨.symbol .leftBracket, start⟩ => some do
    let items ← R (.list .rightBracket)
    expect .rightBracket
    return .array (start.merge (← behind)) items
  | ⟨.symbol .leftBrace, start⟩ => some do
    let members ← R .members
    expect .rightBrace
    return .object (start.merge (← behind)) members
  | _ => none

/-- The statement that a word introduces, if there is one. -/
def statement (R : Rules) : Token → Option (Read (Span → Stmt))
  | ⟨.keyword .let_, _⟩ => some (R (.decl .let_))
  | ⟨.keyword .const, _⟩ => some (R (.decl .const))
  | ⟨.keyword .var, _⟩ => some (R (.decl .var))
  | ⟨.keyword .function, start⟩ => some do return (.function · (← R (.function start)))
  | ⟨.keyword .if_, _⟩ => some (R .ifElse)
  | ⟨.keyword .for_, _⟩ => some (R .forOf)
  | ⟨.keyword .while_, _⟩ => some (R .whileLoop)
  | ⟨.keyword .break_, _⟩ => some (return .break_)
  | ⟨.keyword .continue_, _⟩ => some (return .continue_)
  | ⟨.keyword .return_, _⟩ =>
    some <| ifAt (fun c => c.atSymbol .semicolon || c.atSymbol .rightBrace || c.atEnd)
      (return (.return_ · none))
      do return (.return_ · (some (← R .expr)))
  | _ => none

/-- One call of a rule, where rules are followed by `R` and levels are closed by `leave`. -/
def unfold (leave : (c : Cursor) → Cursor.Onward c) (R : Rules) : Rules
  | .expr => do
    let cond ← R (.binary 0)
    ifEat (.symbol .question)
      (do
        let yes ← R .expr
        expect .colon
        let no ← R .expr
        return .conditional (cond.span.merge no.span) cond yes no)
      (return cond)
  | .binary least => do
    let lhs ← R .unary
    R (.operators least lhs)
  | .operators least lhs =>
    ifTake (·.binary? least)
      (fun op => do
        let rhs ← R (.binary op.power.2)
        R (.operators least (.binary (lhs.span.merge rhs.span) op lhs rhs)))
      (return lhs)
  | .unary => do
    let start ← here
    ifTake Cursor.unary?
      (fun op => do
        let operand ← R (.binary UnOp.power)
        return .unary (start.merge operand.span) op operand)
      (do
        let e ← R .primary
        R (.suffixes e))
  | .suffixes e =>
    ifEat (.symbol .dot)
      (do
        let n ← Cursor.memberName
        R (.suffixes (.member (e.span.merge n.span) e n)))
    <| ifEat (.symbol .leftBracket)
      (do
        let items ← R (.list .rightBracket)
        expect .rightBracket
        R (.suffixes (.index (e.span.merge (← behind)) e items)))
    <| ifEat (.symbol .leftParen)
      (do
        let items ← R (.list .rightParen)
        expect .rightParen
        R (.suffixes (.call (e.span.merge (← behind)) e items)))
      (return e)
  | .primary =>
    ifKnown (fun c => R.primary c.arrowAhead) do
      let start ← here
      move fun c => c.complaining (.expectedExpression c.peek?)
      move fun c => ⟨c.advance, c.size_advance_le⟩
      return .int start 0
  | .list close =>
    ifAt (fun c => c.atSymbol close || c.atEnd) (return []) do
      let e ← R .expr
      ifEat (.symbol .comma) (do return e :: (← R (.list close))) (return [e])
  | .members =>
    ifAt (fun c => c.atSymbol .rightBrace || c.atEnd) (return []) do
      let n ← Cursor.name
      let v ← R (.memberValue n)
      ifEat (.symbol .comma) (do return .mk n v :: (← R .members)) (return [.mk n v])
  | .memberValue n => ifEat (.symbol .colon) (R .expr) (return .var n.span n.text)
  | .arrow start params => do
    expect .arrow
    ifAt (·.atSymbol .leftBrace)
      (do
        let (s, body) ← R .block
        return .mk (start.merge (← behind)) none params s body)
      (do
        let e ← R .expr
        return .mk (start.merge (← behind)) none params e.span [.return_ e.span (some e)])
  | .function start => do
    let name ← Cursor.name?
    expect .leftParen
    let ps ← parseParams
    let (s, body) ← R .block
    return .mk (start.merge (← behind)) name ps s body
  | .block => do
    let start ← here
    ifEnter
      (do
        expect .leftBrace
        let body ← R .stmts
        expect .rightBrace
        move leave
        return (start.merge (← behind), body))
      (do
        move Cursor.drain
        return (start, []))
  | .stmts =>
    ifAt (fun c => c.atSymbol .rightBrace || c.atEnd) (return []) do
      let s ← progressing (R .stmt)
      let ss ← R .stmts
      return if s.isEmpty then ss else s :: ss
  | .stmt => do
    let start ← here
    let s ← R .stmtBody
    move (·.skip .semicolon)
    return s (start.merge (← behind))
  | .stmtBody =>
    ifAt (·.atSymbol .leftBrace) (do return (.block · (← R .block).2))
    <| ifAt (·.atSymbol .semicolon) (return .empty)
    <| ifKnown (fun _ => R.statement) (R .exprStmt)
  | .decl kind => do
    let n ← Cursor.name
    let init ← R .init
    complainIf (·.atSymbol .comma) .severalDeclarators
    return (.decl · kind n init)
  | .init => ifEat (.symbol .assign) (do return some (← R .expr)) (return none)
  | .ifElse => do
    expect .leftParen
    let cond ← R .expr
    expect .rightParen
    let yes ← R .nested
    ifEat (.keyword .else_)
      (do
        let no ← R .nested
        return (.ifElse · cond yes (some no)))
      (return (.ifElse · cond yes none))
  | .forOf => do
    expect .leftParen
    move Cursor.skipDeclKind
    let binding ← parseBinding
    move Cursor.expectOf
    let iter ← R .expr
    expect .rightParen
    let body ← R .nested
    return (.forOf · binding iter body)
  | .whileLoop => do
    expect .leftParen
    let cond ← R .expr
    expect .rightParen
    let body ← R .nested
    return (.while_ · cond body)
  | .nested =>
    ifEnter
      (do
        let s ← R .stmt
        move leave
        return s)
      (do
        let s ← here
        move Cursor.drain
        return .empty s)
  | .exprStmt => do
    let place ← R .expr
    ifTake Cursor.assignment?
      (fun op => do
        let value ← R .expr
        complainIf (·.peek?.any Lexeme.isAssignment) .chainedAssignment
        return (.assign · op place value))
      (return (.expr · place))

/-- The parameters that stand before an arrow: the name that was taken, or a list after its
parenthesis. -/
def arrowParams : Token → Read (List Param)
  | ⟨.identifier n, start⟩ => return [⟨⟨n, start⟩, none⟩]
  | _ => parseParams

/-- The routine that a token starts, if there is one. An arrow is ahead or not. -/
def kernel (R : Rules) (arrow : Bool) (t : Token) : Option (Read (Option Routine)) :=
  if t.lexeme = .keyword .function then some do return some (← R (.function t.span))
  else if arrow then some do
    let ps ← arrowParams t
    return some (← R (.arrow t.span ps))
  else none

def opening (R : Rules) : Read (Option Routine) :=
  ifKnown (fun c => R.kernel c.arrowAhead) do
    move fun c => c.complaining (.expectedKernel c.peek?)
    return none

/-- A whole source: a routine and perhaps a semicolon. -/
def source (R : Rules) : Read (Option Routine) := do
  let r ← R.opening
  move (·.skip .semicolon)
  move fun c => c.complainIf (!c.atEnd) (.afterKernel c.peek?)
  return r

end Rules

/-- The rules as the grammar follows them. -/
def parser : Rules
  | .expr => parseExpr
  | .binary least => parseBinary least
  | .operators least lhs => parseOperators least lhs
  | .unary => parseUnary
  | .suffixes e => parsePostfix e
  | .primary => parsePrimary
  | .list close => parseList close
  | .members => parseMembers
  | .memberValue n => parseMemberValue n
  | .arrow start params => parseArrow start params
  | .function start => parseFunction start
  | .block => parseBlock
  | .stmts => parseStmts
  | .stmt => parseStmt
  | .stmtBody => parseStmtBody
  | .decl kind => parseDecl kind
  | .init => parseInit
  | .ifElse => parseIf
  | .forOf => parseFor
  | .whileLoop => parseWhile
  | .nested => parseNested
  | .exprStmt => parseExprStmt

end ArrayKernel.Surface
