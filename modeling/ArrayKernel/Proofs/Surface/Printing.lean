import Mathlib.Data.List.Forall2
import ArrayKernel.Surface.Grammar

/-!
# Writing expressions

An expression is written with as few parentheses as the powers of the operators allow: an operand
that is held more tightly than it holds together (`Expr.grip`) goes into them.
-/

namespace ArrayKernel.Surface

open List

variable {ls : List Lexeme} {e : Expr} {ms : List Member} {es : List Expr}

/-! ## 1. Lexemes of operators and names -/

def BinOp.token? : BinOp → Option Symbol
  | logicalOr => some .pipePipe
  | logicalAnd => some .ampAmp
  | bitOr => some .pipe
  | bitXor => some .caret
  | bitAnd => some .amp
  | eq => some .equal
  | ne => some .notEqual
  | lt => some .less
  | le => some .lessEqual
  | gt => some .greater
  | ge => some .greaterEqual
  | shl => some .shiftLeft
  | shr => some .shiftRight
  | add => some .plus
  | sub => some .minus
  | mul => some .star
  | div => some .slash
  | mod => some .percent
  | pow => some .starStar
  | floorDiv | matMul => none

theorem BinOp.ofToken?_token? {op : BinOp} {s : Symbol} (h : op.token? = some s) :
    BinOp.ofToken? s = some op := by
  cases op <;> cases h <;> rfl

def UnOp.token : UnOp → Symbol
  | neg => .minus
  | plus => .plus
  | not => .bang
  | bitNot => .tilde

theorem UnOp.ofToken?_token (op : UnOp) : UnOp.ofToken? op.token = some op := by
  cases op <;> rfl

def memberLexeme (n : Name) : Lexeme :=
  if n.text = "const" then .keyword .const
  else if n.text = "of" then .keyword .of
  else .identifier n.text

/-! ## 2. Writing -/

/-- How tightly an expression holds together, against an operator on its left and against one on its
right. Nothing is tighter than a name or brackets; an operator in front holds what is behind it,
and is not torn off from the left. -/
def Expr.grip : Expr → Nat × Nat
  | .conditional .. => (0, 0)
  | .binary _ op _ _ => op.power
  | .unary .. => (24, UnOp.power)
  | _ => (24, 24)

def wrap (bare : Bool) (ls : List Lexeme) : List Lexeme :=
  if bare then ls else .symbol .leftParen :: (ls ++ [.symbol .rightParen])

mutual

def Expr.print : Expr → List Lexeme
  | .int _ n => [.integer n]
  | .float _ v => [.float v]
  | .bool _ b => [.keyword (if b then .true_ else .false_)]
  | .var _ n => [.identifier n]
  | .this _ => [.keyword .this]
  | .array _ items => .symbol .leftBracket :: (printItems items ++ [.symbol .rightBracket])
  | .object _ members => .symbol .leftBrace :: (printMembers members ++ [.symbol .rightBrace])
  | .member _ base n => wrap (24 ≤ base.grip.2) base.print ++ [.symbol .dot, memberLexeme n]
  | .index _ base indices =>
    wrap (24 ≤ base.grip.2) base.print ++ .symbol .leftBracket :: (printItems indices ++ [.symbol .rightBracket])
  | .call _ callee args =>
    wrap (24 ≤ callee.grip.2) callee.print ++ .symbol .leftParen :: (printItems args ++ [.symbol .rightParen])
  | .unary _ op operand => .symbol op.token :: wrap (UnOp.power ≤ operand.grip.1) operand.print
  | .binary _ op lhs rhs =>
    wrap (op.power.1 < lhs.grip.2) lhs.print ++ op.token?.toList.map .symbol ++
      wrap (op.power.2 ≤ rhs.grip.1) rhs.print
  | .conditional _ cond yes no =>
    wrap (0 < cond.grip.1) cond.print ++ .symbol .question :: (yes.print ++ .symbol .colon :: no.print)
  | .arrow .. => []

def printItems : List Expr → List Lexeme
  | [] => []
  | [e] => e.print
  | e :: es => e.print ++ .symbol .comma :: printItems es

def printMembers : List Member → List Lexeme
  | [] => []
  | [.mk n v] => .identifier n.text :: .symbol .colon :: v.print
  | .mk n v :: ms => .identifier n.text :: .symbol .colon :: (v.print ++ .symbol .comma :: printMembers ms)

end

theorem printItems_cons_cons {e' : Expr} :
    printItems (e :: e' :: es) = e.print ++ .symbol .comma :: printItems (e' :: es) := by
  rw [printItems]
  simp

theorem printMembers_cons_cons {n : Name} {v : Expr} {m : Member} :
    printMembers (.mk n v :: m :: ms) =
      .identifier n.text :: .symbol .colon :: (v.print ++ .symbol .comma :: printMembers (m :: ms)) := by
  rw [printMembers]
  simp

/-- Expressions of literals, names, operators that have a token, conditionals, accesses, calls and
brackets. -/
inductive Expr.Printable : Expr → Prop where
  | int (s : Span) (n : Nat) : Printable (.int s n)
  | bool (s : Span) (b : Bool) : Printable (.bool s b)
  | var (s : Span) (n : String) : Printable (.var s n)
  | this (s : Span) : Printable (.this s)
  | array (s : Span) {items : List Expr} (h : ∀ e ∈ items, Printable e) : Printable (.array s items)
  | object (s : Span) {members : List Member} (h : ∀ m ∈ members, Printable m.value) : Printable (.object s members)
  | member (s : Span) {base : Expr} (h : Printable base) (n : Name) : Printable (.member s base n)
  | index (s : Span) {base : Expr} {indices : List Expr} (h : Printable base)
    (hs : ∀ e ∈ indices, Printable e) : Printable (.index s base indices)
  | call (s : Span) {callee : Expr} {args : List Expr} (h : Printable callee)
    (hs : ∀ e ∈ args, Printable e) : Printable (.call s callee args)
  | unary (s : Span) (op : UnOp) {operand : Expr} (h : Printable operand) : Printable (.unary s op operand)
  | binary (s : Span) {op : BinOp} {lhs rhs : Expr} {t : Symbol} (ht : op.token? = some t)
    (hl : Printable lhs) (hr : Printable rhs) : Printable (.binary s op lhs rhs)
  | conditional (s : Span) {cond yes no : Expr} (hc : Printable cond) (hy : Printable yes)
    (hn : Printable no) : Printable (.conditional s cond yes no)

inductive Expr.Same : Expr → Expr → Prop where
  | int (s s' : Span) (n : Nat) : Same (.int s n) (.int s' n)
  | bool (s s' : Span) (b : Bool) : Same (.bool s b) (.bool s' b)
  | var (s s' : Span) (n : String) : Same (.var s n) (.var s' n)
  | this (s s' : Span) : Same (.this s) (.this s')
  | array (s s' : Span) {xs ys : List Expr} (h : Forall₂ Same xs ys) : Same (.array s xs) (.array s' ys)
  | object (s s' : Span) {ms ns : List Member} (hn : ms.map (·.name.text) = ns.map (·.name.text))
    (hv : Forall₂ Same (ms.map (·.value)) (ns.map (·.value))) : Same (.object s ms) (.object s' ns)
  | member (s s' : Span) {b b' : Expr} {n n' : Name} (h : Same b b') (hn : n.text = n'.text) :
    Same (.member s b n) (.member s' b' n')
  | index (s s' : Span) {b b' : Expr} {xs ys : List Expr} (h : Same b b')
    (hs : Forall₂ Same xs ys) : Same (.index s b xs) (.index s' b' ys)
  | call (s s' : Span) {f f' : Expr} {xs ys : List Expr} (h : Same f f') (hs : Forall₂ Same xs ys) :
    Same (.call s f xs) (.call s' f' ys)
  | unary (s s' : Span) (op : UnOp) {e e' : Expr} (h : Same e e') : Same (.unary s op e) (.unary s' op e')
  | binary (s s' : Span) (op : BinOp) {l l' r r' : Expr} (hl : Same l l') (hr : Same r r') :
    Same (.binary s op l r) (.binary s' op l' r')
  | conditional (s s' : Span) {c c' y y' n n' : Expr} (hc : Same c c') (hy : Same y y')
    (hn : Same n n') : Same (.conditional s c y n) (.conditional s' c' y' n')

/-! ## 3. Parentheses in what is written -/

/-- Whether the parenthesis that brings the depth back to zero is followed by an arrow. -/
def arrowCloses (depth : Nat) (ls : List Lexeme) : Bool :=
  Cursor.arrowAfterClose depth (ls.map (⟨·, default⟩))

theorem arrowAfterClose_eq (depth : Nat) (ts : List Token) :
    Cursor.arrowAfterClose depth ts = arrowCloses depth (ts.map (·.lexeme)) := by
  have hhead (ts : List Token) : (ts.head?.map (·.lexeme)) =
      (((ts.map (·.lexeme)).map fun l => (⟨l, default⟩ : Token)).head?.map (·.lexeme)) := by
    cases ts <;> rfl
  induction ts generalizing depth with
  | nil => rfl
  | cons t ts ih =>
    unfold arrowCloses at ih ⊢
    rw [map_cons, map_cons, Cursor.arrowAfterClose, Cursor.arrowAfterClose]
    simp only [ih, hhead ts]

theorem arrowCloses_one (rest : List Lexeme) :
    arrowCloses 1 (.symbol .rightParen :: rest) = (rest.head? == some (.symbol .arrow)) := by
  cases rest <;> rfl

def Balanced (ls : List Lexeme) : Prop :=
  ∀ depth rest, 0 < depth → arrowCloses depth (ls ++ rest) = arrowCloses depth rest

theorem balanced_nil : Balanced [] := fun _ _ _ => rfl

theorem Balanced.append {ms : List Lexeme} (hl : Balanced ls) (hm : Balanced ms) :
    Balanced (ls ++ ms) := by
  intro depth rest hdepth
  rw [append_assoc, hl depth _ hdepth, hm depth _ hdepth]

theorem Balanced.cons {l : Lexeme} (hopen : l ≠ .symbol .leftParen)
    (hclose : l ≠ .symbol .rightParen) (h : Balanced ls) : Balanced (l :: ls) := by
  intro depth rest hdepth
  rw [← h depth rest hdepth]
  unfold arrowCloses
  rw [cons_append, map_cons, Cursor.arrowAfterClose]
  split
  · exact absurd ‹_› hopen
  · exact absurd ‹_› hclose
  · rfl

theorem Balanced.parens (h : Balanced ls) :
    Balanced (.symbol .leftParen :: (ls ++ [.symbol .rightParen])) := by
  intro depth rest hdepth
  have hinner := h (depth + 1) (.symbol .rightParen :: rest) (by omega)
  have hclose : arrowCloses (depth + 1) (.symbol .rightParen :: rest) = arrowCloses depth rest := by
    exact if_neg (by omega)
  rw [← hclose, ← hinner, cons_append, append_assoc]
  rfl

theorem Balanced.wrap (h : Balanced ls) (bare : Bool) : Balanced (wrap bare ls) := by
  cases bare with
  | true => exact h
  | false => exact h.parens

theorem Balanced.brackets (h : Balanced ls) {o c : Symbol} (ho : o ≠ .leftParen ∧ o ≠ .rightParen)
    (hc : c ≠ .leftParen ∧ c ≠ .rightParen) : Balanced (.symbol o :: (ls ++ [.symbol c])) := by
  refine .cons (by simpa using ho.1) (by simpa using ho.2) (h.append ?_)
  exact .cons (by simpa using hc.1) (by simpa using hc.2) balanced_nil

theorem balanced_printItems (h : ∀ e ∈ es, Balanced e.print) : Balanced (printItems es) := by
  induction es with
  | nil =>
    exact balanced_nil
  | cons e es ih =>
    have hfirst := h e (mem_cons_self ..)
    have hrest := ih fun e' he' => h e' (mem_cons_of_mem _ he')
    cases es with
    | nil =>
      exact hfirst
    | cons e' es =>
      exact hfirst.append (hrest.cons (by simp) (by simp))

theorem balanced_printMembers (h : ∀ m ∈ ms, Balanced m.value.print) :
    Balanced (printMembers ms) := by
  induction ms with
  | nil =>
    exact balanced_nil
  | cons m ms ih =>
    obtain ⟨n, v⟩ := m
    have hfirst : Balanced v.print := h (.mk n v) (mem_cons_self ..)
    have hrest := ih fun m' hm' => h m' (mem_cons_of_mem _ hm')
    cases ms with
    | nil =>
      exact (hfirst.cons (by simp) (by simp)).cons (by simp) (by simp)
    | cons m' ms =>
      exact ((hfirst.append (hrest.cons (by simp) (by simp))).cons (by simp) (by simp)).cons (by simp) (by simp)

theorem balanced_memberLexeme (n : Name) : Balanced [memberLexeme n] := by
  unfold memberLexeme
  split
  · exact balanced_nil.cons (by simp) (by simp)
  · split <;> exact balanced_nil.cons (by simp) (by simp)

theorem Expr.Printable.balanced (h : e.Printable) : Balanced e.print := by
  induction h with
  | int | bool | var | this =>
    exact balanced_nil.cons (by simp) (by simp)
  | array s _ ih =>
    exact (balanced_printItems ih).brackets (by simp) (by simp)
  | object s _ ih =>
    exact (balanced_printMembers ih).brackets (by simp) (by simp)
  | member s _ n ih =>
    exact (ih.wrap _).append ((balanced_memberLexeme n).cons (by simp) (by simp))
  | index s _ _ ih ihs =>
    exact (ih.wrap _).append ((balanced_printItems ihs).brackets (by simp) (by simp))
  | call s _ _ ih ihs =>
    exact (ih.wrap _).append (balanced_printItems ihs).parens
  | unary s op _ ih =>
    exact (ih.wrap _).cons (by cases op <;> simp [UnOp.token]) (by cases op <;> simp [UnOp.token])
  | @binary s op lhs rhs t ht _ _ ihl ihr =>
    rw [Expr.print, ht]
    refine ((ihl.wrap _).append ?_).append (ihr.wrap _)
    exact balanced_nil.cons (by cases op <;> cases ht <;> simp) (by cases op <;> cases ht <;> simp)
  | conditional s _ _ _ ihc ihy ihn =>
    exact (ihc.wrap _).append ((ihy.append (ihn.cons (by simp) (by simp))).cons (by simp) (by simp))

/-! ## 4. How what is written starts -/

def Lexeme.startsExpr : Lexeme → Bool
  | .integer _ | .identifier _ => true
  | .keyword k => k = .true_ || k = .false_ || k = .this
  | .symbol s => s = .leftParen || s = .leftBracket || s = .leftBrace || (UnOp.ofToken? s).isSome
  | .float _ => false

def Starts (ls : List Lexeme) : Prop := ∃ l rest, ls = l :: rest ∧ l.startsExpr

theorem Starts.wrap (h : Starts ls) (bare : Bool) (ms : List Lexeme) :
    Starts (wrap bare ls ++ ms) := by
  obtain ⟨l, rest, rfl, hl⟩ := h
  cases bare with
  | true => exact ⟨l, rest ++ ms, rfl, hl⟩
  | false => exact ⟨.symbol .leftParen, _, rfl, rfl⟩

theorem Expr.Printable.starts (h : e.Printable) : Starts e.print := by
  induction h with
  | int | var | this | array | object =>
    exact ⟨_, _, rfl, rfl⟩
  | bool s b =>
    exact ⟨_, _, rfl, by cases b <;> rfl⟩
  | member s _ n ih | index s _ _ ih | call s _ _ ih | conditional s _ _ _ ih =>
    exact ih.wrap _ _
  | unary s op _ ih =>
    exact ⟨_, _, rfl, by cases op <;> rfl⟩
  | binary s ht _ _ ihl ihr =>
    rw [Expr.print, append_assoc]
    exact ihl.wrap _ _

end ArrayKernel.Surface
