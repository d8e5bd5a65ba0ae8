import ArrayKernel.Surface.Cursor
import ArrayKernel.Surface.Tree

/-!
Reading routines from tokens.

The reader never fails: where a word is missing it complains and goes on, so that one pass reports
everything. Each rule gives what it read and a cursor that is no larger than the one it started
from. The rules call each other along a measure: sixteen times the tokens left, plus the level of
the rule. A rule calls a rule of the same or a higher level only after it has taken a token.

Main entry: `Routine.parse`, which gives a routine only if nothing was complained about and no token
is left.
-/

namespace ArrayKernel.Surface

/-- The names of a list, up to the first that is not followed by a comma. -/
def parseNames (close : Symbol) (c : Cursor) : Parsed c (List Name) :=
  if c.atSymbol close || c.atEnd then ⟨[], c, Nat.le_refl _⟩
  else
    let ⟨n, c₁, h₁⟩ := c.name
    match c₁.eatSymbol? .comma with
    | some ⟨c₂, h₂⟩ =>
      let ⟨ns, c₃, h₃⟩ := parseNames close c₂
      ⟨n :: ns, c₃, by omega⟩
    | none => ⟨[n], c₁, h₁⟩
termination_by c.size

def parseAnnotationParts (a : Name) (c : Cursor) : Parsed c Name :=
  match c.eatSymbol? .dot with
  | some ⟨c₁, h₁⟩ =>
    let ⟨n, c₂, h₂⟩ := c₁.name
    let ⟨a', c₃, h₃⟩ := parseAnnotationParts ⟨a.text ++ "." ++ n.text, a.span.merge n.span⟩ c₂
    ⟨a', c₃, by omega⟩
  | none => ⟨a, c, Nat.le_refl _⟩
termination_by c.size

/-- An ascription: a dotted name, perhaps with an empty pair of parentheses, which only its span
shows. -/
def parseAnnotation (c : Cursor) : Parsed c Name :=
  let ⟨first, c₁, h₁⟩ := c.name
  let ⟨a, c₂, h₂⟩ := parseAnnotationParts first c₁
  match c₂.eatSymbol? .leftParen with
  | some ⟨c₃, h₃⟩ =>
    let ⟨c₄, h₄⟩ := c₃.expect .rightParen
    ⟨⟨a.text, a.span.merge c₄.behind⟩, c₄, by omega⟩
  | none => ⟨a, c₂, by omega⟩

def parseAnnotation? (c : Cursor) : Parsed c (Option Name) :=
  match c.eatSymbol? .colon with
  | some ⟨c₁, h₁⟩ =>
    let ⟨a, c₂, h₂⟩ := parseAnnotation c₁
    ⟨some a, c₂, by omega⟩
  | none => ⟨none, c, Nat.le_refl _⟩

def parseParamItems (c : Cursor) : Parsed c (List Param) :=
  if c.atSymbol .rightParen || c.atEnd then ⟨[], c, Nat.le_refl _⟩
  else
    let ⟨n, c₁, h₁⟩ := c.name
    let ⟨a, c₂, h₂⟩ := parseAnnotation? c₁
    match c₂.eatSymbol? .comma with
    | some ⟨c₃, h₃⟩ =>
      let ⟨ps, c₄, h₄⟩ := parseParamItems c₃
      ⟨⟨n, a⟩ :: ps, c₄, by omega⟩
    | none => ⟨[⟨n, a⟩], c₂, by omega⟩
termination_by c.size

def parseParams (c : Cursor) : Parsed c (List Param) :=
  let ⟨ps, c₁, h₁⟩ := parseParamItems c
  let ⟨c₂, h₂⟩ := c₁.expect .rightParen
  ⟨ps, c₂, by omega⟩

def parseBinding (c : Cursor) : Parsed c Binding :=
  match c.eatSymbol? .leftBracket with
  | some ⟨c₁, h₁⟩ =>
    let ⟨ns, c₂, h₂⟩ := parseNames .rightBracket c₁
    let ⟨c₃, h₃⟩ := c₂.expect .rightBracket
    ⟨.names ns, c₃, by omega⟩
  | none =>
    let ⟨n, c₁, h₁⟩ := c.name
    ⟨.name n, c₁, h₁⟩

mutual

def parseExpr (c : Cursor) : Parsed c Expr :=
  let ⟨cond, c₁, h₁⟩ := parseBinary 0 c
  match c₁.eatSymbol? .question with
  | none => ⟨cond, c₁, h₁⟩
  | some ⟨c₂, h₂⟩ =>
    let ⟨yes, c₃, h₃⟩ := parseExpr c₂
    let ⟨c₄, h₄⟩ := c₃.expect .colon
    let ⟨no, c₅, h₅⟩ := parseExpr c₄
    ⟨.conditional (cond.span.merge no.span) cond yes no, c₅, by omega⟩
termination_by 16 * c.size + 3
decreasing_by all_goals omega

/-- An operand and the operators after it that hold at least as tightly as `least`. -/
def parseBinary (least : Nat) (c : Cursor) : Parsed c Expr :=
  let ⟨lhs, c₁, h₁⟩ := parseUnary c
  let ⟨e, c₂, h₂⟩ := parseOperators least lhs c₁
  ⟨e, c₂, by omega⟩
termination_by 16 * c.size + 2
decreasing_by all_goals omega

def parseOperators (least : Nat) (lhs : Expr) (c : Cursor) : Parsed c Expr :=
  match c.binary? least with
  | none => ⟨lhs, c, Nat.le_refl _⟩
  | some (op, ⟨c₁, h₁⟩) =>
    let ⟨rhs, c₂, h₂⟩ := parseBinary op.power.2 c₁
    let ⟨e, c₃, h₃⟩ := parseOperators least (.binary (lhs.span.merge rhs.span) op lhs rhs) c₂
    ⟨e, c₃, by omega⟩
termination_by 16 * c.size
decreasing_by all_goals omega

def parseUnary (c : Cursor) : Parsed c Expr :=
  match c.unary? with
  | some (op, ⟨c₁, h₁⟩) =>
    let ⟨operand, c₂, h₂⟩ := parseBinary UnOp.power c₁
    ⟨.unary (c.here.merge operand.span) op operand, c₂, by omega⟩
  | none =>
    let ⟨primary, c₁, h₁⟩ := parsePrimary c
    let ⟨e, c₂, h₂⟩ := parsePostfix primary c₁
    ⟨e, c₂, by omega⟩
termination_by 16 * c.size + 1
decreasing_by all_goals omega

def parsePostfix (e : Expr) (c : Cursor) : Parsed c Expr :=
  match c.eatSymbol? .dot with
  | some ⟨c₁, h₁⟩ =>
    let ⟨n, c₂, h₂⟩ := c₁.memberName
    let ⟨e', c₃, h₃⟩ := parsePostfix (.member (e.span.merge n.span) e n) c₂
    ⟨e', c₃, by omega⟩
  | none =>
  match c.eatSymbol? .leftBracket with
  | some ⟨c₁, h₁⟩ =>
    let ⟨items, c₂, h₂⟩ := parseList .rightBracket c₁
    let ⟨c₃, h₃⟩ := c₂.expect .rightBracket
    let ⟨e', c₄, h₄⟩ := parsePostfix (.index (e.span.merge c₃.behind) e items) c₃
    ⟨e', c₄, by omega⟩
  | none =>
  match c.eatSymbol? .leftParen with
  | some ⟨c₁, h₁⟩ =>
    let ⟨items, c₂, h₂⟩ := parseList .rightParen c₁
    let ⟨c₃, h₃⟩ := c₂.expect .rightParen
    let ⟨e', c₄, h₄⟩ := parsePostfix (.call (e.span.merge c₃.behind) e items) c₃
    ⟨e', c₄, by omega⟩
  | none => ⟨e, c, Nat.le_refl _⟩
termination_by 16 * c.size
decreasing_by all_goals omega

def parsePrimary (c : Cursor) : Parsed c Expr :=
  match c.next? with
  | none => ⟨.int c.here 0, c.complain (.expectedExpression none), Nat.le_refl _⟩
  | some (⟨l, start⟩, ⟨c₁, h₁⟩) =>
    match l with
    | .integer n => ⟨.int start n, c₁, by omega⟩
    | .float v => ⟨.float start v, c₁, by omega⟩
    | .keyword .true_ => ⟨.bool start true, c₁, by omega⟩
    | .keyword .false_ => ⟨.bool start false, c₁, by omega⟩
    | .keyword .this => ⟨.this start, c₁, by omega⟩
    | .identifier n =>
      if c.arrowAhead then
        let ⟨r, c₂, h₂⟩ := parseArrow start [⟨⟨n, start⟩, none⟩] c₁
        ⟨.arrow r.span r, c₂, by omega⟩
      else ⟨.var start n, c₁, by omega⟩
    | .keyword .function =>
      let ⟨r, c₂, h₂⟩ := parseFunction start c₁
      ⟨.arrow r.span r, c₂, by omega⟩
    | .symbol .leftParen =>
      if c.arrowAhead then
        let ⟨ps, c₂, h₂⟩ := parseParams c₁
        let ⟨r, c₃, h₃⟩ := parseArrow start ps c₂
        ⟨.arrow r.span r, c₃, by omega⟩
      else
        let ⟨inner, c₂, h₂⟩ := parseExpr c₁
        let ⟨c₃, h₃⟩ := c₂.complainIf (c₂.atSymbol .comma) .commaExpression
        let ⟨c₄, h₄⟩ := c₃.expect .rightParen
        ⟨inner.withSpan (start.merge c₄.behind), c₄, by omega⟩
    | .symbol .leftBracket =>
      let ⟨items, c₂, h₂⟩ := parseList .rightBracket c₁
      let ⟨c₃, h₃⟩ := c₂.expect .rightBracket
      ⟨.array (start.merge c₃.behind) items, c₃, by omega⟩
    | .symbol .leftBrace =>
      let ⟨members, c₂, h₂⟩ := parseMembers c₁
      let ⟨c₃, h₃⟩ := c₂.expect .rightBrace
      ⟨.object (start.merge c₃.behind) members, c₃, by omega⟩
    | l => ⟨.int start 0, (c.complain (.expectedExpression (some l))).advance, Cursor.size_advance_le _⟩
termination_by 16 * c.size
decreasing_by all_goals omega

/-- Expressions up to a closing symbol or the first that is not followed by a comma. -/
def parseList (close : Symbol) (c : Cursor) : Parsed c (List Expr) :=
  if c.atSymbol close || c.atEnd then ⟨[], c, Nat.le_refl _⟩
  else
    let ⟨e, c₁, h₁⟩ := parseExpr c
    match c₁.eatSymbol? .comma with
    | some ⟨c₂, h₂⟩ =>
      let ⟨es, c₃, h₃⟩ := parseList close c₂
      ⟨e :: es, c₃, by omega⟩
    | none => ⟨[e], c₁, h₁⟩
termination_by 16 * c.size + 4
decreasing_by all_goals omega

def parseMembers (c : Cursor) : Parsed c (List Member) :=
  if c.atSymbol .rightBrace || c.atEnd then ⟨[], c, Nat.le_refl _⟩
  else
    let ⟨n, c₁, h₁⟩ := c.name
    let ⟨v, c₂, h₂⟩ := parseMemberValue n c₁
    match c₂.eatSymbol? .comma with
    | some ⟨c₃, h₃⟩ =>
      let ⟨ms, c₄, h₄⟩ := parseMembers c₃
      ⟨.mk n v :: ms, c₄, by omega⟩
    | none => ⟨[.mk n v], c₂, by omega⟩
termination_by 16 * c.size + 5
decreasing_by all_goals omega

/-- The value of a member. A name alone stands for the variable of that name. -/
def parseMemberValue (n : Name) (c : Cursor) : Parsed c Expr :=
  match c.eatSymbol? .colon with
  | some ⟨c₁, h₁⟩ =>
    let ⟨e, c₂, h₂⟩ := parseExpr c₁
    ⟨e, c₂, by omega⟩
  | none => ⟨.var n.span n.text, c, Nat.le_refl _⟩
termination_by 16 * c.size + 4
decreasing_by all_goals omega

/-- A routine after its parameters: an arrow, then a block, or an expression whose value is
returned. -/
def parseArrow (start : Span) (params : List Param) (c : Cursor) : Parsed c Routine :=
  let ⟨c₁, h₁⟩ := c.expect .arrow
  have hb := c₁.bodySize_le
  if c₁.atSymbol .leftBrace then
    let ⟨(s, body), c₂, h₂⟩ := parseBlock c₁
    ⟨.mk (start.merge c₂.behind) none params s body, c₂, by omega⟩
  else
    let ⟨e, c₂, h₂⟩ := parseExpr c₁
    ⟨.mk (start.merge c₂.behind) none params e.span [.return_ e.span (some e)], c₂, by omega⟩
termination_by 16 * c.size + 9
decreasing_by all_goals omega

/-- A routine after the word that introduces it: perhaps a name, then parameters and a block. -/
def parseFunction (start : Span) (c : Cursor) : Parsed c Routine :=
  let ⟨name, c₁, h₁⟩ := c.name?
  let ⟨c₂, h₂⟩ := c₁.expect .leftParen
  let ⟨ps, c₃, h₃⟩ := parseParams c₂
  have hb := c₃.bodySize_le
  let ⟨(s, body), c₄, h₄⟩ := parseBlock c₃
  ⟨.mk (start.merge c₄.behind) name ps s body, c₄, by omega⟩
termination_by 16 * c.size + 9
decreasing_by all_goals omega

/-- Statements between braces. Past the nesting limit the rest of the input is passed over. -/
def parseBlock (c : Cursor) : Parsed c (Span × List Stmt) :=
  have hb := c.bodySize_le
  let ⟨allowed, c₁, h₁, hb₁⟩ := c.enter
  if allowed then
    let ⟨c₂, h₂⟩ := c₁.openBrace
    let ⟨body, c₃, h₃⟩ := parseStmts c₂
    let ⟨c₄, h₄⟩ := c₃.expect .rightBrace
    let ⟨c₅, h₅⟩ := c₄.leave
    ⟨(c.here.merge c₅.behind, body), c₅, by omega⟩
  else
    let ⟨c₂, h₂⟩ := c₁.drain
    ⟨(c.here, []), c₂, by omega⟩
termination_by 16 * c.bodySize + 8
decreasing_by all_goals omega

/-- Statements up to a closing brace. Empty statements leave no trace, and a statement that takes no
token has the next one passed over. -/
def parseStmts (c : Cursor) : Parsed c (List Stmt) :=
  if h : c.atSymbol .rightBrace || c.atEnd then ⟨[], c, Nat.le_refl _⟩
  else
    let ⟨s, c₁, h₁⟩ := parseStmt c
    let ⟨c₂, h₂⟩ := Cursor.progress c c₁ h₁ (Cursor.size_pos (by simp_all))
    let ⟨ss, c₃, h₃⟩ := parseStmts c₂
    ⟨if s.isEmpty then ss else s :: ss, c₃, by omega⟩
termination_by 16 * c.size + 7
decreasing_by all_goals omega

def parseStmt (c : Cursor) : Parsed c Stmt :=
  let ⟨s, c₁, h₁⟩ := parseStmtBody c
  let ⟨c₂, h₂⟩ := c₁.skip .semicolon
  ⟨s (c.here.merge c₂.behind), c₂, by omega⟩
termination_by 16 * c.size + 6
decreasing_by all_goals omega

def parseStmtBody (c : Cursor) : Parsed c (Span → Stmt) :=
  match c.next? with
  | none => parseExprStmt c
  | some (⟨l, start⟩, ⟨c₁, h₁⟩) =>
    match l with
    | .symbol .leftBrace =>
      if hb : c.atSymbol .leftBrace = true then
        have hb' := Cursor.bodySize_lt hb
        let ⟨(_, body), c₂, h₂⟩ := parseBlock c
        ⟨(.block · body), c₂, h₂⟩
      else parseExprStmt c
    | .keyword .let_ =>
      let ⟨s, c₂, h₂⟩ := parseDecl .let_ c₁
      ⟨s, c₂, by omega⟩
    | .keyword .const =>
      let ⟨s, c₂, h₂⟩ := parseDecl .const c₁
      ⟨s, c₂, by omega⟩
    | .keyword .var =>
      let ⟨s, c₂, h₂⟩ := parseDecl .var c₁
      ⟨s, c₂, by omega⟩
    | .keyword .function =>
      let ⟨r, c₂, h₂⟩ := parseFunction start c₁
      ⟨(.function · r), c₂, by omega⟩
    | .keyword .if_ =>
      let ⟨s, c₂, h₂⟩ := parseIf c₁
      ⟨s, c₂, by omega⟩
    | .keyword .for_ =>
      let ⟨s, c₂, h₂⟩ := parseFor c₁
      ⟨s, c₂, by omega⟩
    | .keyword .while_ =>
      let ⟨s, c₂, h₂⟩ := parseWhile c₁
      ⟨s, c₂, by omega⟩
    | .keyword .break_ => ⟨.break_, c₁, by omega⟩
    | .keyword .continue_ => ⟨.continue_, c₁, by omega⟩
    | .keyword .return_ =>
      if c₁.atSymbol .semicolon || c₁.atSymbol .rightBrace || c₁.atEnd then
        ⟨(.return_ · none), c₁, by omega⟩
      else
        let ⟨e, c₂, h₂⟩ := parseExpr c₁
        ⟨(.return_ · (some e)), c₂, by omega⟩
    | .symbol .semicolon => ⟨.empty, c, Nat.le_refl _⟩
    | _ => parseExprStmt c
termination_by 16 * c.size + 5
decreasing_by all_goals omega

def parseDecl (kind : DeclKind) (c : Cursor) : Parsed c (Span → Stmt) :=
  let ⟨n, c₁, h₁⟩ := c.name
  let ⟨init, c₂, h₂⟩ := parseInit c₁
  let ⟨c₃, h₃⟩ := c₂.complainIf (c₂.atSymbol .comma) .severalDeclarators
  ⟨(.decl · kind n init), c₃, by omega⟩
termination_by 16 * c.size + 9
decreasing_by all_goals omega

def parseInit (c : Cursor) : Parsed c (Option Expr) :=
  match c.eatSymbol? .assign with
  | some ⟨c₁, h₁⟩ =>
    let ⟨e, c₂, h₂⟩ := parseExpr c₁
    ⟨some e, c₂, by omega⟩
  | none => ⟨none, c, Nat.le_refl _⟩
termination_by 16 * c.size + 8
decreasing_by all_goals omega

def parseIf (c : Cursor) : Parsed c (Span → Stmt) :=
  let ⟨c₁, h₁⟩ := c.expect .leftParen
  let ⟨cond, c₂, h₂⟩ := parseExpr c₁
  let ⟨c₃, h₃⟩ := c₂.expect .rightParen
  let ⟨yes, c₄, h₄⟩ := parseNested c₃
  match c₄.eat? (.keyword .else_) with
  | some ⟨c₅, h₅⟩ =>
    let ⟨no, c₆, h₆⟩ := parseNested c₅
    ⟨(.ifElse · cond yes (some no)), c₆, by omega⟩
  | none => ⟨(.ifElse · cond yes none), c₄, by omega⟩
termination_by 16 * c.size + 9
decreasing_by all_goals omega

def parseFor (c : Cursor) : Parsed c (Span → Stmt) :=
  let ⟨c₁, h₁⟩ := c.expect .leftParen
  let ⟨c₂, h₂⟩ := c₁.skipDeclKind
  let ⟨binding, c₃, h₃⟩ := parseBinding c₂
  let ⟨c₄, h₄⟩ := c₃.expectOf
  let ⟨iter, c₅, h₅⟩ := parseExpr c₄
  let ⟨c₆, h₆⟩ := c₅.expect .rightParen
  let ⟨body, c₇, h₇⟩ := parseNested c₆
  ⟨(.forOf · binding iter body), c₇, by omega⟩
termination_by 16 * c.size + 9
decreasing_by all_goals omega

def parseWhile (c : Cursor) : Parsed c (Span → Stmt) :=
  let ⟨c₁, h₁⟩ := c.expect .leftParen
  let ⟨cond, c₂, h₂⟩ := parseExpr c₁
  let ⟨c₃, h₃⟩ := c₂.expect .rightParen
  let ⟨body, c₄, h₄⟩ := parseNested c₃
  ⟨(.while_ · cond body), c₄, by omega⟩
termination_by 16 * c.size + 9
decreasing_by all_goals omega

/-- A statement one level deeper. Past the nesting limit the rest of the input is passed over. -/
def parseNested (c : Cursor) : Parsed c Stmt :=
  let ⟨allowed, c₁, h₁, _⟩ := c.enter
  if allowed then
    let ⟨s, c₂, h₂⟩ := parseStmt c₁
    let ⟨c₃, h₃⟩ := c₂.leave
    ⟨s, c₃, by omega⟩
  else
    let ⟨c₂, h₂⟩ := c₁.drain
    ⟨.empty c₁.here, c₂, by omega⟩
termination_by 16 * c.size + 7
decreasing_by all_goals omega

/-- An expression, or an assignment to the place that it denotes. -/
def parseExprStmt (c : Cursor) : Parsed c (Span → Stmt) :=
  let ⟨place, c₁, h₁⟩ := parseExpr c
  match c₁.assignment? with
  | none => ⟨(.expr · place), c₁, h₁⟩
  | some (op, ⟨c₂, h₂⟩) =>
    let ⟨value, c₃, h₃⟩ := parseExpr c₂
    let ⟨c₄, h₄⟩ := c₃.complainIf (c₃.peek?.any Lexeme.isAssignment) .chainedAssignment
    ⟨(.assign · op place value), c₄, by omega⟩
termination_by 16 * c.size + 4
decreasing_by all_goals omega

end

/-- A routine at the start of a source, if its first words are those of one. -/
def parseRoutine (c : Cursor) : Option Routine × Cursor :=
  match c.next? with
  | some (⟨.keyword .function, start⟩, ⟨c₁, _⟩) =>
    let r := parseFunction start c₁
    (some r.value, r.next)
  | some (⟨l, start⟩, ⟨c₁, _⟩) =>
    if c.arrowAhead then
      match l with
      | .identifier n =>
        let r := parseArrow start [⟨⟨n, start⟩, none⟩] c₁
        (some r.value, r.next)
      | _ =>
        let ps := parseParams c₁
        let r := parseArrow start ps.value ps.next
        (some r.value, r.next)
    else (none, c.complain (.expectedKernel (some l)))
  | none => (none, c.complain (.expectedKernel none))

def Routine.ofTokens (tokens : List Token) (stop : Span) : Except (List Complaint) Routine :=
  let (routine, c₁) := parseRoutine { rest := tokens, stop }
  let c₂ := (c₁.skip .semicolon).1
  let c₃ := (c₂.complainIf (!c₂.atEnd) (.afterKernel c₂.peek?)).1
  match routine, c₃.complaints with
  | some r, [] => .ok r
  | _, complaints => .error complaints.reverse

/-- Reads a kernel or helper: `(params) => body` or `function name(params) block`. Complaints of the
scanner come alone; only a source that scans cleanly is parsed. -/
def Routine.parse (file : Nat) (source : String) : Except (List Complaint) Routine :=
  let s := scan file source
  if s.complaints.isEmpty then Routine.ofTokens s.tokens ⟨file, s.stop, s.stop⟩
  else .error s.complaints

end ArrayKernel.Surface
