import ArrayKernel.Lowering.Expr
import ArrayKernel.Proofs.SpanNesting

/-!
# Dotted paths and members

A chain of members is lowered at once if the scope has a value at its dotted path. It lowers to the
same as if it is lowered one member after another (`lowerExpr_chain`): the words of a text hold no
dot, and what stands between two dots is a record.
-/

namespace ArrayKernel

open List

/-! ## 1. Paths -/

variable {name : String} {path : List String}

namespace Scope

/-- The value of a member, if the value that it is taken from is a record. -/
def memberOf (name : String) : Value → Option Value
  | .record r => r.get? name
  | _ => none

theorem follow_append (v : Value) (path : List String) (name : String) :
    follow v (path ++ [name]) = (follow v path).bind (memberOf name) := by
  induction path generalizing v with
  | nil => cases v <;> simp [follow, memberOf]
  | cons head rest ih =>
    cases v with
    | record r =>
      simp only [cons_append, follow]
      cases r.get? head with
      | none => rfl
      | some w => exact ih w
    | _ => rfl

theorem resolve?_append {s : Scope} (hpath : path ≠ []) :
    s.resolve? (path ++ [name]) = (s.resolve? path).bind (memberOf name) := by
  obtain ⟨head, rest, rfl⟩ := exists_cons_of_ne_nil hpath
  simp only [cons_append, resolve?, Option.bind_assoc, follow_append]

theorem resolvePath?_intercalate (s : Scope) (hpath : path ≠ [])
    (hdot : ∀ name ∈ path, '.' ∉ name.toList) :
    s.resolvePath? (".".intercalate path) = s.resolve? path := by
  have hsplit : (".".intercalate path).toList.splitOn '.' = path.map String.toList := by
    rw [String.toList_intercalate]
    exact splitOn_intercalate '.' (by simpa using hdot) (by simpa using hpath)
  rw [resolvePath?, hsplit, map_map]
  simp [Function.comp_def]

theorem resolvePath?_member (s : Scope) (path : String) (hdot : '.' ∉ name.toList) :
    s.resolvePath? (path ++ "." ++ name) = (s.resolvePath? path).bind (memberOf name) := by
  have hlist : (path ++ "." ++ name).toList = path.toList ++ '.' :: name.toList := by simp
  rw [resolvePath?, hlist, splitOn_append_cons_self, splitOn_eq_singleton hdot, map_append]
  rw [map_singleton, String.ofList_toList, resolve?_append (by simp)]
  rfl

end Scope

namespace Lowering

open Surface

variable {ctx : Context} {scope : Scope} {e : Expr} {path : List String} {v : Value}

/-! ## 2. One member after another -/

theorem dot_not_mem (h : Text.Over isIdentifierPart name) : '.' ∉ name.toList :=
  fun hdot => absurd (h _ hdot) (by decide)

/-- Lowers a chain from its head on, member by member. -/
def stepwise (ctx : Context) (scope : Scope) : Expr → Lower Lowered
  | .member _ base name => do member (← stepwise ctx scope base) name.text name.span
  | e => lowerExpr ctx scope e

theorem stepwise_chain (ctx : Context) (scope : Scope) {file i j : Nat} {source : String}
    (h : Covers (scan file source).tokens i j e.node) (hpath : e.path? = some path) :
    path ≠ [] ∧ (∀ name ∈ path, '.' ∉ name.toList) ∧
      ∀ v, scope.resolve? path = some v → stepwise ctx scope e = ofValue v ∧ lowerExpr ctx scope e = ofValue v := by
  fun_induction Expr.path? e generalizing path i j with
  | case1 s n =>
    cases hpath
    obtain ⟨hword, hthis⟩ := h.spelled
    refine ⟨cons_ne_nil _ _, by simpa using dot_not_mem hword, fun v hv => ?_⟩
    have hget : scope.get? n = some v := by simpa [Scope.resolve?, hthis, Scope.follow] using hv
    have hlower : lowerExpr ctx scope (.var s n) = ofValue v := by
      rw [lowerExpr, hget]
      rfl
    exact ⟨hlower, hlower⟩
  | case2 s =>
    cases hpath
    refine ⟨cons_ne_nil _ _, by simp, fun v hv => ?_⟩
    have hget : scope.receiver = some v := by simpa [Scope.resolve?, Scope.follow] using hv
    have hlower : lowerExpr ctx scope (.this s) = ofValue v := by
      rw [lowerExpr, hget]
      rfl
    exact ⟨hlower, hlower⟩
  | case3 s b n ih =>
    obtain ⟨p, hp, rfl⟩ := Option.map_eq_some_iff.1 hpath
    obtain ⟨_, _, -, -, hb⟩ := h.mem_kids (m := b.node) (by simp [Expr.node, Node.kids])
    obtain ⟨_, _, -, -, hn⟩ := h.mem_kids (m := .ofName n) (by simp [Expr.node, Node.kids])
    obtain ⟨hne, hdot, hbase⟩ := ih hb hp
    refine ⟨by simp, by simpa [or_imp, forall_and] using ⟨hdot, dot_not_mem hn.spelled.1⟩, fun v hv => ?_⟩
    have hstep := hv
    rw [Scope.resolve?_append hne] at hstep
    obtain ⟨w, hw, hmember⟩ := Option.bind_eq_some_iff.1 hstep
    cases w with
    | record r =>
      have hget : r.get? n.text = some v := hmember
      refine ⟨?_, ?_⟩
      · rw [stepwise, (hbase _ hw).1]
        simp only [ofValue, pure_bind, member, hget]
      · rw [lowerExpr, show (Expr.member s b n).path? = _ from hpath]
        simp only [Option.bind_some, pathValue?, hv, Option.some_or]
    | _ => cases hmember
  | case4 => cases hpath

/-- Where a scope has a value at the dotted path of a chain, the chain is lowered as if member by
member, whatever was lowered before. The value at a path is that of its last member. -/
theorem lowerExpr_chain (scope : Scope) :
    (∀ {file : Nat} {source : String} {r : Routine} {e : Expr} {path : List String} (ctx : Context),
      Routine.parse file source = .ok r → e.node.Within r.node → e.path? = some path →
      (scope.resolvePath? (".".intercalate path)).isSome → lowerExpr ctx scope e = stepwise ctx scope e) ∧
    ∀ path name : String, '.' ∉ name.toList →
      scope.resolvePath? (path ++ "." ++ name) = (scope.resolvePath? path).bind (Scope.memberOf name) := by
  refine ⟨fun ctx hr he hpath hfound => ?_, fun path name hdot => scope.resolvePath?_member path hdot⟩
  obtain ⟨k, hr⟩ := covers_parse hr
  obtain ⟨i, j, he⟩ := hr.within he
  obtain ⟨hne, hdot, hchain⟩ := stepwise_chain ctx scope he hpath
  rw [scope.resolvePath?_intercalate hne hdot] at hfound
  obtain ⟨v, hv⟩ := Option.isSome_iff_exists.1 hfound
  obtain ⟨hstep, hlower⟩ := hchain v hv
  rw [hstep, hlower]

/-- The receiver is a record, which has one of its keys twice and holds an argument. -/
def pathScope : Scope where
  receiver := some (.record (.cons "g" (.record (.cons "y" (.arg 0 .f32) (.cons "y" (.number (.i32 1)) .nil))) .nil))

/-- The expression that a routine consists of. -/
def Routine.result? : Routine → Option Expr
  | .mk _ _ _ _ [.return_ _ e] => e
  | _ => none

theorem Routine.within_result {r : Routine} (h : Routine.result? r = some e) :
    e.node.Within r.node := by
  unfold Routine.result? at h
  split at h
  · next s name params t u _ =>
    cases h
    exact .kid (k := .plain t [.plain u [e.node]])
      (by simp [Routine.node, Node.kids, Stmt.nodes, Stmt.node, Expr.node?])
      (.kid (mem_singleton_self _) (.kid (mem_singleton_self _) .refl))
  · cases h

def pathContext : Context :=
  { settings := {}, origin := .kernel, inline := fun _ _ _ _ _ => pure .void }

theorem lowerExpr_receiver :
    ∃ r e, Routine.parse 0 "() => (this.g).y" = .ok r ∧ e.path? = some ["this", "g", "y"]
      ∧ lowerExpr pathContext pathScope e = stepwise pathContext pathScope e := by
  have hparsed : ((Routine.parse 0 "() => (this.g).y").toOption.bind Routine.result?).bind
      Expr.path? = some ["this", "g", "y"] := by decide +kernel
  obtain ⟨e, he, hpath⟩ := Option.bind_eq_some_iff.1 hparsed
  obtain ⟨r, hr, hresult⟩ := Option.bind_eq_some_iff.1 he
  cases hparse : Routine.parse 0 "() => (this.g).y" with
  | error _ => rw [hparse] at hr; cases hr
  | ok r' =>
    refine ⟨r', e, rfl, hpath, (lowerExpr_chain pathScope).1 pathContext hparse ?_ hpath (by decide +kernel)⟩
    rw [hparse] at hr
    cases hr
    exact Routine.within_result hresult

end Lowering

end ArrayKernel
