import ArrayKernel.Surface.Token
import ArrayKernel.Surface.Tree

/-!
# Where nodes stand

A tree as its spans and words alone (`Node`), and what it is for a tree to be laid out over some of
the tokens of a text (`Covers`): each node reaches from the first of its tokens to the last, and the
nodes below it share its tokens out in order.
-/

namespace ArrayKernel.Surface

/-! ## 1. Nodes of trees -/

inductive Node where
  | word (span : Span) (text : String)
  | plain (span : Span) (kids : List Node)
  | member (span : Span) (name value : Node)

namespace Node

def span : Node → Span
  | word s _ | plain s _ | member s _ _ => s

def kids : Node → List Node
  | word .. => []
  | plain _ ks => ks
  | member _ n v => [n, v]

inductive Within (n : Node) : Node → Prop where
  | refl : Within n n
  | kid {k m : Node} (hk : k ∈ m.kids) (h : Within n k) : Within n m

def ofName (n : Name) : Node := .word n.span n.text

end Node

def Param.node (p : Param) : Node :=
  match p.ascription with
  | none => .plain p.name.span [.ofName p.name]
  | some a => .plain (p.name.span.merge a.span) [.ofName p.name, .plain a.span []]

def Binding.nodes : Binding → List Node
  | .name n => [.ofName n]
  | .names ns => ns.map Node.ofName

mutual

def Expr.node : Expr → Node
  | .int s _ | .float s _ | .bool s _ | .this s => .plain s []
  | .var s n => .word s n
  | .array s items => .plain s (Expr.nodes items)
  | .object s members => .plain s (Member.nodes members)
  | .member s b n => .plain s [b.node, .ofName n]
  | .index s b is => .plain s (b.node :: Expr.nodes is)
  | .call s f xs => .plain s (f.node :: Expr.nodes xs)
  | .unary s _ e => .plain s [e.node]
  | .binary s _ l r => .plain s [l.node, r.node]
  | .conditional s c y n => .plain s [c.node, y.node, n.node]
  | .arrow s r => .plain s [r.node]

def Expr.nodes : List Expr → List Node
  | [] => []
  | e :: es => e.node :: Expr.nodes es

def Member.node : Member → Node
  | .mk n e => .member (n.span.merge e.span) (.ofName n) e.node

def Member.nodes : List Member → List Node
  | [] => []
  | m :: ms => m.node :: Member.nodes ms

def Expr.node? : Option Expr → List Node
  | some e => [e.node]
  | none => []

def Stmt.node : Stmt → Node
  | .decl s _ n init => .plain s (.ofName n :: Expr.node? init)
  | .function s r => .plain s [r.node]
  | .ifElse s c y n => .plain s (c.node :: y.node :: Stmt.node? n)
  | .forOf s b i body => .plain s (b.nodes ++ [i.node, body.node])
  | .while_ s c body => .plain s [c.node, body.node]
  | .break_ s | .continue_ s | .empty s => .plain s []
  | .return_ s v => .plain s (Expr.node? v)
  | .block s body => .plain s (Stmt.nodes body)
  | .assign s _ place value => .plain s [place.node, value.node]
  | .expr s e => .plain s [e.node]

def Stmt.nodes : List Stmt → List Node
  | [] => []
  | s :: ss => s.node :: Stmt.nodes ss

def Stmt.node? : Option Stmt → List Node
  | some s => [s.node]
  | none => []

def Routine.node : Routine → Node
  | .mk s name params bodySpan body =>
    .plain s (name.toList.map Node.ofName ++ params.map Param.node ++ [.plain bodySpan (Stmt.nodes body)])

end

theorem Expr.span_node {e : Expr} : e.node.span = e.span := by
  cases e <;> rfl

/-! ## 2. Nodes over tokens -/

def Lexeme.text? : Lexeme → Option String
  | .identifier n => some n
  | .keyword .const => some "const"
  | .keyword .of => some "of"
  | _ => none

def spanAt (all : List Token) (i : Nat) : Span := (all.getD i default).span

def spanOf (all : List Token) (i j : Nat) : Span :=
  { spanAt all i with stop := (spanAt all (j - 1)).stop }

/-- Tokens take something, and come one after another. -/
structure InOrder (all : List Token) : Prop where
  nonempty {i : Nat} (hi : i < all.length) : (spanAt all i).start < (spanAt all i).stop
  apart {i j : Nat} (hij : i < j) (hj : j < all.length) : (spanAt all i).stop ≤ (spanAt all j).start

/-- Nodes that share out the tokens from `i` to `j`, in order. -/
inductive Row (P : Nat → Nat → Node → Prop) : Nat → Nat → List Node → Prop where
  | nil {i j : Nat} (h : i ≤ j) : Row P i j []
  | cons {i j k l : Nat} {n : Node} {ns : List Node} (hn : P k l n) (hns : Row P l j ns)
    (hi : i ≤ k) : Row P i j (n :: ns)

/-- A word may stand in parentheses. The name of a member may stand for its value as well. -/
inductive Covers (all : List Token) : Nat → Nat → Node → Prop where
  | word {i j k : Nat} {t : Token} {text : String} (hi : i ≤ k) (hk : k < j) (hj : j ≤ all.length)
      (ht : all[k]? = some t)
    (htext : t.lexeme.text? = some text) : Covers all i j (.word (spanOf all i j) text)
  | plain {i j : Nat} {kids : List Node} (hi : i < j) (hj : j ≤ all.length)
    (h : Row (Covers all) i j kids) : Covers all i j (.plain (spanOf all i j) kids)
  | member {i j k l : Nat} {n v : Node} (hn : Covers all i j n) (hv : Covers all k l v)
    (hjk : j ≤ k) : Covers all i l (.member (spanOf all i l) n v)
  | shorthand {i j : Nat} {n : Node} (hn : Covers all i j n) : Covers all i j (.member (spanOf all i j) n n)

variable {all : List Token} {i j k l : Nat} {n : Node} {ns : List Node}
  {P : Nat → Nat → Node → Prop}

namespace InOrder

theorem start_le (h : InOrder all) (hij : i ≤ j) (hj : j < all.length) :
    (spanAt all i).start ≤ (spanAt all j).start := by
  rcases Nat.eq_or_lt_of_le hij with rfl | hlt
  · exact Nat.le_refl _
  · exact Nat.le_trans (Nat.le_of_lt (h.nonempty (Nat.lt_trans hlt hj))) (h.apart hlt hj)

theorem stop_le (h : InOrder all) (hij : i ≤ j) (hj : j < all.length) :
    (spanAt all i).stop ≤ (spanAt all j).stop := by
  rcases Nat.eq_or_lt_of_le hij with rfl | hlt
  · exact Nat.le_refl _
  · exact Nat.le_trans (h.apart hlt hj) (Nat.le_of_lt (h.nonempty hj))

theorem merge (h : InOrder all) (hle : i < j ∧ i ≤ k ∧ k < l ∧ j ≤ l ∧ l ≤ all.length) :
    (spanOf all i j).merge (spanOf all k l) = spanOf all i l := by
  have hstart : (spanOf all i j).start ≤ (spanOf all k l).start := h.start_le hle.2.1 (by omega)
  have hstop : (spanOf all i j).stop ≤ (spanOf all k l).stop := h.stop_le (by omega) (by omega)
  rw [Span.merge, Nat.min_eq_left hstart, Nat.max_eq_right hstop]
  rfl

end InOrder

namespace Row

theorem widen (h : Row P i j ns) (hk : k ≤ i) (hl : j ≤ l) : Row P k l ns := by
  induction h generalizing k with
  | nil h => exact .nil (by omega)
  | cons hn _ hi ih => exact .cons hn (ih (Nat.le_refl _) hl) (by omega)

theorem append {ms : List Node} (h : Row P i j ns) (h' : Row P j k ms) : Row P i k (ns ++ ms) := by
  induction h with
  | nil h => exact h'.widen (by omega) (by omega)
  | cons hn _ hi ih => exact .cons hn (ih h') (by omega)

theorem one (h : P i j n) : Row P i j [n] := .cons h (.nil (by omega)) (by omega)

end Row

namespace Covers

theorem bounds : ∀ {i j : Nat} {n : Node}, Covers all i j n → i < j ∧ j ≤ all.length
  | _, _, _, .word hi hk hj _ _ => ⟨Nat.lt_of_le_of_lt hi hk, hj⟩
  | _, _, _, .plain hi hj _ => ⟨hi, hj⟩
  | _, _, _, .member hn hv hjk =>
    ⟨Nat.lt_trans (Nat.lt_of_lt_of_le hn.bounds.1 hjk) hv.bounds.1, hv.bounds.2⟩
  | _, _, _, .shorthand hn => hn.bounds

theorem span (h : Covers all i j n) : n.span = spanOf all i j := by
  cases h <;> rfl

theorem expr_span {e : Expr} (h : Covers all i j e.node) : e.span = spanOf all i j :=
  e.span_node ▸ h.span

end Covers

end ArrayKernel.Surface
