import ArrayKernel.Proofs.Surface.Moves

/-!
# What rules read

Each rule reads what covers the tokens that it takes (`Rule.Post`), provided that the rules which it
calls do (`Rules.reads_unfold`). So a source is read as a tree that is laid out over its tokens
(`Rules.reads_source`).
-/

namespace ArrayKernel.Surface

open Read

variable {all : List Token} {i j k l : Nat} {t : Token} {kids : List Node} {c : Cursor} {s : Span}

/-! ## 1. Names and parameters -/

theorem ascription_eq : parseAnnotation c = (do
    let first ← Cursor.name
    let a ← parseAnnotationParts first
    ifEat (.symbol .leftParen)
      (do
        expect .rightParen
        return ⟨a.text, a.span.merge (← behind)⟩)
      (return a) : Read Name) c := by
  rcases hname : c.name with ⟨first, c1, h1⟩
  rcases hparts : parseAnnotationParts first c1 with ⟨a, c2, h2⟩
  rw [ parseAnnotation, bind_of hname, bind_of hparts, ifEat, hname]
  dsimp only [Cursor.eatSymbol?]
  rw [hparts]
  cases c2.eat? (.symbol .leftParen) <;> rfl

theorem ascription?_eq :
    parseAnnotation? c = ifEat (.symbol .colon) (do return some (← parseAnnotation)) (return none) c := by
  rw [ parseAnnotation?]
  rfl

theorem parseParams_eq :
    parseParams c = (do let ps ← parseParamItems; expect .rightParen; return ps : Read _) c := by
  rw [parseParams]
  rfl

theorem parseBinding_eq : parseBinding c = ifEat (.symbol .leftBracket)
    (do
      let ns ← parseNames .rightBracket
      expect .rightBracket
      return .names ns)
    (do return .name (← Cursor.name)) c := by
  rw [parseBinding]
  rfl

theorem spanAt_eq (h : all[i]? = some t) : spanAt all i = t.span := by
  rw [spanAt, List.getD_eq_getElem?_getD, h, Option.getD_some]

theorem covers_word {l : Lexeme} {text : String} (h : all[i]? = some ⟨l, s⟩)
    (htext : l.text? = some text) : Covers all i (i + 1) (.word s text) := by
  obtain rfl : spanOf all i (i + 1) = s := spanAt_eq h
  exact .word (Nat.le_refl i) (Nat.lt_succ_self i) (List.getElem?_eq_some_iff.1 h).1 h htext

theorem reads_name : Reads all Cursor.name fun i n j => Covers all i j (.ofName n) := by
  intro c
  unfold Cursor.name
  split
  · next n s more hc => exact .advance hc fun i hi => covers_word hi rfl
  · exact .complain (.refl _)

theorem reads_name? :
    Reads all Cursor.name? fun i n j => Row (Covers all) i j (n.toList.map Node.ofName) := by
  intro c
  unfold Cursor.name?
  split
  · next n s more hc => exact .advance hc fun i hi => .one (covers_word hi rfl)
  · exact .stay fun i _ => .nil (by omega)

theorem reads_memberName : Reads all Cursor.memberName fun i n j => Covers all i j (.ofName n) := by
  intro c
  unfold Cursor.memberName
  split
  · next s more hc => exact .advance hc fun i hi => covers_word hi rfl
  · next s more hc => exact .advance hc fun i hi => covers_word hi rfl
  · exact reads_name c

theorem reads_parseNames (close : Symbol) :
    Reads all (parseNames close) fun i ns j => Row (Covers all) i j (ns.map Node.ofName) := by
  intro c
  fun_induction parseNames close c with
  | case1 c hstop => exact .stay fun i _ => .nil (by omega)
  | case2 c hmore n c1 h1 hname c2 h2 heat ns c3 h3 hrest ih =>
    have hfirst := @reads_name all c
    rw [hname] at hfirst
    obtain rfl : c2 = c1.advance := eat?_eq_some heat
    rw [hrest] at ih
    refine hfirst.trans (.take h2 (ih.mono fun k l _ _ hns j hj i hij hn => ?_))
    refine .cons hn (hns.widen ?_ ?_) ?_ <;> omega
  | case3 c hmore n c1 h1 hname heat =>
    have hfirst := @reads_name all c
    rw [hname] at hfirst
    exact hfirst.trans (.stay fun j _ i hij hn => .one hn)

section

variable (hall : InOrder all)

include hall

theorem reads_ascriptionParts (a : Name) : Reads all (parseAnnotationParts a) fun i b j =>
    ∀ k < i, a.span = spanOf all k i → b.span = spanOf all k j := by
  intro c
  fun_induction parseAnnotationParts a c with
  | case1 a c c1 h1 heat n c2 h2 hname b c3 h3 hrest ih =>
    obtain rfl : c1 = c.advance := eat?_eq_some heat
    have hfirst := @reads_name all c.advance
    rw [hname] at hfirst
    rw [hrest] at ih
    refine .take h1 (hfirst.trans (ih.mono fun l m _ _ hb j hjl hn i hi k hk ha => hb k (by omega) ?_))
    have := hn.bounds
    show a.span.merge n.span = _
    rw [ha, show n.span = _ from hn.span, hall.merge (by omega)]
  | case2 a c heat => exact .stay fun i _ k _ ha => ha

theorem reads_ascription :
    Reads all parseAnnotation fun i a j => i < j ∧ a.span = spanOf all i j := by
  intro c
  rw [ascription_eq]
  refine Reads.bind reads_name (fun first => (reads_ascriptionParts hall first).bind fun a => .ifEat ?_ (.pure ?_)) c
  · refine (Reads.expect _).bind fun _ => Reads.behind.bind fun s => .pure ?_
    rintro m hm _ - ⟨rfl, hs⟩ _ - rfl l rfl k hk ha i hi hfirst
    have := hfirst.bounds
    refine ⟨by omega, ?_⟩
    show a.span.merge s = _
    rw [ha i this.1 hfirst.span, hs (by omega)]
    exact hall.merge (by omega)
  · intro k hk j hjk ha i hij hfirst
    have := hfirst.bounds
    exact ⟨by omega, ha i this.1 hfirst.span⟩

theorem reads_ascription? :
    Reads all parseAnnotation? fun i o j => ∀ a ∈ o, ∃ k < j, i ≤ k ∧ a.span = spanOf all k j := by
  intro c
  refine Reads.ifEat ((reads_ascription hall).bind fun a => .pure ?_) (.pure fun _ _ => nofun) c
  rintro l - k - ⟨hkl, ha⟩ i rfl _ ⟨⟩
  exact ⟨_, hkl, Nat.le_succ i, ha⟩

theorem covers_param {p : Param} (hn : Covers all i j (.ofName p.name))
    (ha : ∀ a ∈ p.ascription, ∃ l < k, j ≤ l ∧ a.span = spanOf all l k) (hjk : j ≤ k)
    (hk : k ≤ all.length) : Row (Covers all) i k [p.node] := by
  obtain ⟨n, o⟩ := p
  have := hn.bounds
  cases o with
  | none =>
    refine Row.widen (.one (n := .plain n.span _) ?_) (Nat.le_refl i) hjk
    rw [show n.span = _ from hn.span]
    exact .plain this.1 this.2 (.one hn)
  | some a =>
    obtain ⟨l, hl, hjl, hspan⟩ := ha a rfl
    refine .one (n := .plain (n.span.merge a.span) _) ?_
    rw [show n.span = _ from hn.span, hspan, hall.merge (by omega)]
    refine .plain ?_ hk (.cons hn (.cons (.plain hl hk (.nil ?_)) (.nil ?_) ?_) ?_) <;> omega

theorem reads_parseParamItems :
    Reads all parseParamItems fun i ps j => Row (Covers all) i j (ps.map Param.node) := by
  intro c
  fun_induction parseParamItems c with
  | case1 c hstop => exact .stay fun i _ => .nil (by omega)
  | case2 c hmore n c1 h1 hname a c2 h2 hann c3 h3 heat ps c4 h4 hrest ih =>
    have hfirst := @reads_name all c
    rw [hname] at hfirst
    have hsecond := reads_ascription? hall c1
    rw [hann] at hsecond
    obtain rfl : c3 = c2.advance := eat?_eq_some heat
    rw [hrest] at ih
    refine hfirst.trans (hsecond.trans (.take h3 (ih.mono fun l m hm hlm hps k hl j hjk ha i hij hn => ?_)))
    refine (covers_param hall hn ha hjk ?_).append (hps.widen ?_ ?_) <;> omega
  | case3 c hmore n c1 h1 hname a c2 h2 hann heat =>
    have hfirst := @reads_name all c
    rw [hname] at hfirst
    have hsecond := reads_ascription? hall c1
    rw [hann] at hsecond
    exact hfirst.trans (hsecond.trans (.stay fun k hk j hjk ha i hij hn => covers_param hall hn ha hjk hk.le))

theorem reads_parseParams :
    Reads all parseParams fun i ps j => Row (Covers all) i j (ps.map Param.node) := by
  intro c
  rw [parseParams_eq]
  refine (reads_parseParamItems hall).bind (fun ps => (Reads.expect _).bind fun _ => .pure ?_) c
  rintro k - j - rfl i - hps
  exact hps.widen (by omega) (by omega)

end

theorem reads_parseBinding : Reads all parseBinding fun i b j => Row (Covers all) i j b.nodes := by
  intro c
  rw [parseBinding_eq]
  refine Reads.ifEat ?_ (Reads.bind reads_name fun n => .pure fun j _ i _ hn => .one hn) c
  refine (reads_parseNames _).bind fun ns => (Reads.expect _).bind fun _ => .pure ?_
  rintro l - k - rfl j - hns i rfl
  exact hns.widen (by omega) (by omega)

/-! ## 2. Rules -/

/-- A statement without its span yet, and the nodes below it. -/
def Fills (all : List Token) (i : Nat) (f : Span → Stmt) (j : Nat) : Prop :=
  ∃ kids, Row (Covers all) i j kids ∧ ∀ s, (f s).node = .plain s kids

/-- What a rule reads covers the tokens that it takes. Some rules go on from tokens that were taken
before. -/
def Rule.Post (all : List Token) (r : Rule) (i : Nat) (a : r.Out) (j : Nat) : Prop :=
  match r, a with
  | .expr, e | .binary _, e | .unary, e | .primary, e => Covers all i j e.node
  | .operators _ lhs, e | .suffixes lhs, e => ∀ h, Covers all h i lhs.node → Covers all h j e.node
  | .list _, es => Row (Covers all) i j (Expr.nodes es)
  | .members, ms => Row (Covers all) i j (Member.nodes ms)
  | .memberValue n, e => ∀ h, Covers all h i (.ofName n) → Covers all h j (Member.mk n e).node
  | .arrow start ps, r => ∀ h < i, start = spanAt all h → Row (Covers all) h i (ps.map Param.node) →
      Covers all h j r.node
  | .function start, r => ∀ h, i = h + 1 → start = spanAt all h → Covers all h j r.node
  | .block, b => Covers all i j (.plain b.1 (Stmt.nodes b.2))
  | .stmts, ss => Row (Covers all) i j (Stmt.nodes ss)
  | .stmt, s | .nested, s => Covers all i j s.node
  | .stmtBody, f => (i < j ∨ all[i]?.map (·.lexeme) = some (.symbol .semicolon)) ∧ Fills all i f j
  | .exprStmt, f => i < j ∧ Fills all i f j
  | .decl _, f | .ifElse, f | .forOf, f | .whileLoop, f => Fills all i f j
  | .init, o => Row (Covers all) i j (Expr.node? o)

theorem covers_plain (hs : s = spanOf all i j) (h : Row (Covers all) i j kids)
    (hij : i < j) (hj : j ≤ all.length) : Covers all i j (.plain s kids) :=
  hs ▸ .plain hij hj h

theorem Covers.row (h : Covers all i j (.plain s kids)) : Row (Covers all) i j kids := by
  cases h
  assumption

theorem Covers.withSpan {e : Expr} (h : Covers all i j e.node) (hk : k ≤ i) (hjl : j ≤ l)
    (hl : l ≤ all.length) : Covers all k l (e.withSpan (spanOf all k l)).node := by
  cases e with
  | var s n =>
    cases h with
    | word hi hj _ ht htext => exact .word (Nat.le_trans hk hi) (Nat.lt_of_lt_of_le hj hjl) hl ht htext
  | _ => exact .plain (Nat.lt_of_le_of_lt hk (Nat.lt_of_lt_of_le h.bounds.1 hjl)) hl (h.row.widen hk hjl)

theorem Covers.arrow {r : Routine} (h : Covers all i j r.node) :
    Covers all i j (Expr.arrow r.span r).node := by
  have := h.bounds
  refine covers_plain ?_ (.one h) this.1 this.2
  cases r
  exact h.span

section

variable (hall : InOrder all) {R : Rules}

include hall

theorem InOrder.covers {a b : Span} (ha : a = spanOf all i j) (hb : b = spanOf all k l)
    (h : Row (Covers all) i l kids) (hle : i < j ∧ i ≤ k ∧ k < l ∧ j ≤ l ∧ l ≤ all.length) :
    Covers all i l (.plain (a.merge b) kids) :=
  covers_plain (by rw [ha, hb, hall.merge hle]) h (by omega) (by omega)

theorem InOrder.covers_reach {start stop : Span} (hstart : i < all.length → start = spanAt all i)
    (hstop : 0 < j → stop = spanAt all (j - 1)) (h : Row (Covers all) i j kids) (hij : i < j)
    (hj : j ≤ all.length) : Covers all i j (.plain (start.merge stop) kids) :=
  hall.covers (j := i + 1) (hstart (by omega)) (hstop (by omega)) h (by omega)

theorem Rules.reads_primary (hR : ∀ r, Reads all (R r) (r.Post all)) {arrow : Bool} :
    ∀ x ∈ R.primary arrow t,
    Reads all x fun j e k => ∀ i, j = i + 1 → all[i]? = some t → Covers all i k e.node := by
  obtain ⟨l, start⟩ := t
  have hleaf {e : Expr} (he : e.node = .plain start []) : Reads all (return e) fun j e k => ∀ i, j = i + 1 →
      all[i]? = some ⟨l, start⟩ → Covers all i k e.node := by
    refine .pure ?_
    rintro _ hk i rfl ht
    rw [he, ← show spanAt all i = start from spanAt_eq ht]
    exact .plain (Nat.lt_succ_self i) hk (.nil (by omega))
  intro x hx
  cases l with
  | integer n =>
    cases hx
    exact hleaf rfl
  | float v =>
    cases hx
    exact hleaf rfl
  | identifier n =>
    cases arrow with
    | false =>
      cases hx
      refine .pure ?_
      rintro _ - i rfl ht
      exact covers_word ht rfl
    | true =>
      cases hx
      refine (hR (.arrow start _)).bind fun r => .pure ?_
      rintro k - j - hr i rfl ht
      have hparam := covers_param hall (p := ⟨⟨n, start⟩, none⟩) (covers_word ht rfl) nofun
        (Nat.le_refl _) (List.getElem?_eq_some_iff.1 ht).1
      exact (hr i (Nat.lt_succ_self i) (spanAt_eq ht).symm hparam).arrow
  | keyword k =>
    cases k with
    | function =>
      cases hx
      refine (hR (.function start)).bind fun r => .pure ?_
      rintro k - j - hr i rfl ht
      exact (hr i rfl (spanAt_eq ht).symm).arrow
    | true_ | false_ | this =>
      cases hx
      exact hleaf rfl
    | _ => cases hx
  | symbol s =>
    cases s with
    | leftParen =>
      cases arrow with
      | false =>
        cases hx
        refine (hR .expr).bind fun e => (Reads.complainIf _ _).bind fun _ =>
          (Reads.expect _).bind fun _ => Reads.behind.bind fun s => .pure ?_
        rintro m hm _ - ⟨rfl, hs⟩ l - rfl _ - rfl j - he i rfl ht
        have := he.bounds
        have hspan : start.merge s = spanOf all i (l + 1) := by
          rw [hs (by omega), ← show spanAt all i = start from spanAt_eq ht]
          exact hall.merge (j := i + 1) (by omega)
        show Covers all i _ (e.withSpan (start.merge s)).node
        rw [hspan]
        exact he.withSpan (Nat.le_succ i) (Nat.le_succ _) hm
      | true =>
        cases hx
        refine (reads_parseParams hall).bind fun ps => (hR (.arrow start ps)).bind fun r => .pure ?_
        rintro l - k - hr j hjk hps i rfl ht
        exact (hr i hjk (spanAt_eq ht).symm (hps.widen (by omega) (by omega))).arrow
    | leftBracket | leftBrace =>
      cases hx
      refine Reads.bind (hR _) fun items => (Reads.expect _).bind fun _ => Reads.behind.bind fun s => .pure ?_
      rintro m hm _ - ⟨rfl, hs⟩ l - rfl j hjl hitems i rfl ht
      refine hall.covers_reach (fun _ => (spanAt_eq ht).symm) hs (Row.widen hitems ?_ ?_) ?_ ?_ <;> omega
    | _ => cases hx

omit hall in
theorem Rules.reads_statement (hR : ∀ r, Reads all (R r) (r.Post all)) : ∀ x ∈ R.statement t,
    Reads all x fun j f k => ∀ i, j = i + 1 → all[i]? = some t → Rule.Post all .stmtBody i f k := by
  obtain ⟨l, start⟩ := t
  have hfills {x : Read (Span → Stmt)} (h : Reads all x (Fills all)) : Reads all x fun j f k => ∀ i, j = i + 1 →
      all[i]? = some ⟨l, start⟩ → Rule.Post all .stmtBody i f k := by
    refine h.mono ?_
    rintro j f k - hjk ⟨kids, hkids, hf⟩ i rfl -
    exact ⟨.inl hjk, kids, hkids.widen (by omega) (by omega), hf⟩
  intro x hx
  cases l with
  | keyword k =>
    cases k with
    | let_ | const | var | if_ | for_ | while_ =>
      cases hx
      exact hfills (hR _)
    | function =>
      cases hx
      refine (hR (.function start)).bind fun r => .pure ?_
      rintro k - j hjk hr i rfl ht
      exact ⟨.inl hjk, _, .one (hr i rfl (spanAt_eq ht).symm), fun s => rfl⟩
    | break_ | continue_ =>
      cases hx
      exact hfills (.pure fun i _ => ⟨_, .nil (by omega), fun s => rfl⟩)
    | return_ =>
      cases hx
      refine hfills (.ifAt (fun c _ => .stay fun i _ => ⟨_, .nil (by omega), fun s => rfl⟩) ?_)
      exact (hR .expr).bind fun e => .pure fun j _ i _ he => ⟨_, .one he, fun s => rfl⟩
    | _ => cases hx
  | _ => cases hx

theorem Rules.reads_unfold (hR : ∀ r, Reads all (R r) (r.Post all)) (r : Rule) :
    Reads all (Rules.unfold Cursor.leave R r) (r.Post all) := by
  cases r with
  | expr =>
    refine (hR (.binary 0)).bind fun cond => .ifEat ?_ (.pure fun j _ i _ h => h)
    refine (hR .expr).bind fun yes => (Reads.expect _).bind fun _ => (hR .expr).bind fun no => .pure ?_
    rintro m hm l - hno k - rfl j - hyes _ rfl i - hcond
    have := hcond.bounds
    have := hyes.bounds
    have := hno.bounds
    refine hall.covers hcond.expr_span hno.expr_span
      (.cons hcond (.cons hyes (.cons hno (.nil ?_) ?_) ?_) ?_) ?_ <;> omega
  | binary least => exact (hR .unary).bind fun lhs => (hR (.operators least lhs)).mono fun j e k _ _ h i _ hl => h i hl
  | operators least lhs =>
    refine .ifTake binary?_eq_some (fun op => (hR (.binary _)).bind
      fun rhs => (hR (.operators least _)).mono ?_) (.pure fun i _ h hl => hl)
    rintro k e l - - he j - hr _ rfl i hl
    have := hl.bounds
    have := hr.bounds
    refine he i (hall.covers hl.expr_span hr.expr_span (.cons hl (.cons hr (.nil ?_) ?_) ?_) ?_) <;> omega
  | unary =>
    refine Reads.here.bind fun start => .ifTake unary?_eq_some (fun op => (hR (.binary _)).bind fun e => .pure ?_) ?_
    · rintro k hk j - he i rfl _ - ⟨rfl, hs⟩
      have := he.bounds
      refine hall.covers (j := i + 1) (hs ?_) he.expr_span (.cons he (.nil ?_) ?_) ?_ <;> omega
    · refine (hR .primary).bind fun e => (hR (.suffixes e)).mono ?_
      rintro k e' l - - he' j - he _ - ⟨rfl, -⟩
      exact he' j he
  | suffixes e =>
    refine .ifEat (reads_memberName.bind fun n => (hR (.suffixes _)).mono ?_)
      (.ifEat ?_ (.ifEat ?_ (.pure fun i _ h he => he)))
    · rintro k e' l - - he' j - hn _ rfl i he
      have := he.bounds
      have := hn.bounds
      refine he' i (hall.covers he.expr_span hn.span (.cons he (.cons hn (.nil ?_) ?_) ?_) ?_) <;> omega
    all_goals
      refine (hR (.list _)).bind fun items => (Reads.expect _).bind fun _ =>
        Reads.behind.bind fun s => (hR (.suffixes _)).mono ?_
      rintro m e' n hn hmn he' _ - ⟨rfl, hs⟩ l - rfl k hkl hitems j rfl i he
      have := he.bounds
      refine he' i (hall.covers he.expr_span (hs ?_) (.cons he (hitems.widen ?_ ?_) ?_) ?_) <;> omega
  | primary =>
    exact .ifKnown (fun c t => Rules.reads_primary hall hR) fun c => .complain (Moves.advance _)
  | list close =>
    refine .ifAt (fun c _ => .stay fun i _ => .nil (by omega)) ((hR .expr).bind fun e => .ifEat ?_ ?_)
    · refine (hR (.list close)).bind fun es => .pure ?_
      rintro l - k - hes j rfl i - he
      refine .cons he (hes.widen ?_ ?_) ?_ <;> omega
    · exact .pure fun j _ i _ he => .one he
  | members =>
    refine .ifAt (fun c _ => .stay fun i _ => .nil (by omega))
      (reads_name.bind fun n => (hR (.memberValue n)).bind fun v => ?_)
    refine .ifEat ((hR .members).bind fun ms => .pure ?_) (.pure fun k _ j _ hv i _ hn => .one (hv i hn))
    rintro m - l - hms k rfl j - hv i - hn
    refine .cons (hv i hn) (hms.widen ?_ ?_) ?_ <;> omega
  | memberValue n =>
    refine .ifEat ((hR .expr).mono ?_) (.pure fun i _ h hn => ?_)
    · rintro k e l - - he j rfl i hn
      have := hn.bounds
      have := he.bounds
      show Covers all i l (.member (n.span.merge e.span) _ _)
      rw [show n.span = _ from hn.span, he.expr_span, hall.merge (by omega)]
      exact .member hn he (Nat.le_succ j)
    · have hspan : n.span.merge n.span = spanOf all h i := by
        rw [show n.span = _ from hn.span, hall.merge (by have := hn.bounds; omega)]
      show Covers all h i (.member (n.span.merge n.span) _ _)
      rw [hspan]
      exact .shorthand hn
  | arrow start params =>
    refine (Reads.expect _).bind fun _ => .ifAt (fun c _ => ?_) ?_
    · refine Reads.bind (hR .block) (fun b => Reads.behind.bind fun s => .pure ?_) c
      rintro l hl _ - ⟨rfl, hs⟩ k - hb j - rfl i hi rfl hps
      have := hb.bounds
      refine hall.covers_reach (fun _ => rfl) hs (hps.append (.cons hb (.nil ?_) ?_)) ?_ ?_ <;> omega
    · refine Reads.bind (hR .expr) (fun e => Reads.behind.bind fun s => .pure ?_)
      rintro l hl _ - ⟨rfl, hs⟩ k - he j - rfl i hi rfl hps
      obtain ⟨hlt, hle⟩ := he.bounds
      have hreturn := covers_plain he.expr_span (.one (covers_plain he.expr_span (.one he) hlt hle)) hlt hle
      refine hall.covers_reach (fun _ => rfl) hs (hps.append (.cons hreturn (.nil ?_) ?_)) ?_ ?_ <;> omega
  | function start =>
    refine reads_name?.bind fun name => (Reads.expect _).bind fun _ => (reads_parseParams hall).bind fun ps => ?_
    refine (hR .block).bind fun b => Reads.behind.bind fun s => .pure ?_
    rintro n hn _ - ⟨rfl, hs⟩ m - hb l hlm hps k - rfl j hjk hname i rfl rfl
    have := hb.bounds
    refine hall.covers_reach (fun _ => rfl) hs (((hname.widen ?_ ?_).append hps).append (.one hb)) ?_ ?_ <;> omega
  | block =>
    refine Reads.here.bind fun start => ?_
    refine @Reads.ifEnter _ _ _ _ (do expect .leftBrace; let body ← R .stmts; expect .rightBrace; return body) _
      (fun body c => (start.merge c.behind, body)) ?_ fun c => Moves.drain c
    refine (Reads.expect _).bind fun _ => (hR .stmts).bind fun body => (Reads.expect _).bind fun _ => .pure ?_
    rintro m hm l - rfl k hkl hbody i - rfl c hc _ - ⟨rfl, hs⟩
    refine hall.covers_reach hs hc.behind (hbody.widen ?_ ?_) ?_ ?_ <;> omega
  | stmts =>
    refine .ifAt (fun c _ => .stay fun i _ => .nil (by omega)) ?_
    refine ((hR .stmt).progressing fun i s j h => h.bounds.1).bind fun s => (hR .stmts).bind fun ss => .pure ?_
    rintro k - j - hss i hij hs
    show Row _ _ _ (Stmt.nodes (if s.isEmpty then ss else s :: ss))
    split
    · exact hss.widen (by omega) (by omega)
    · exact .cons hs hss (by omega)
  | stmt =>
    refine Reads.here.bind fun start => (hR .stmtBody).bind fun f => (Reads.skip _).bind fun _ =>
      Reads.behind.bind fun s => .pure ?_
    rintro l hl _ - ⟨rfl, hs⟩ k hkl ⟨-, hskip⟩ i hik ⟨htake, kids, hkids, hf⟩ _ - ⟨rfl, hstart⟩
    -- Either the body takes a token, or the semicolon is the whole statement.
    have hlt : i < l := by
      rcases htake with hlt | hsemicolon
      · omega
      · rcases Nat.eq_or_lt_of_le hik with rfl | hlt
        · exact hskip hsemicolon ▸ Nat.lt_succ_self i
        · omega
    show Covers all i l (f (start.merge s)).node
    rw [hf]
    refine hall.covers_reach hstart hs (hkids.widen ?_ ?_) ?_ ?_ <;> omega
  | stmtBody =>
    refine .ifAt (fun c _ => ?_) (.ifAt (fun c hc => ?_)
      (.ifKnown (fun c t => ?_) ((hR .exprStmt).mono fun i f j _ _ h => ⟨.inl h.1, h.2⟩)))
    · refine Reads.bind (hR .block) (fun b => .pure fun j _ i _ hb => ?_) c
      exact ⟨.inl hb.bounds.1, _, hb.row, fun s => rfl⟩
    · refine .stay fun i hi => ⟨.inr ?_, [], .nil (by omega), fun s => rfl⟩
      rw [Cursor.atSymbol, Cursor.at_, Cursor.peek?, hi.rest, List.head?_drop] at hc
      exact eq_of_beq hc
    · exact Rules.reads_statement hR
  | decl kind =>
    refine reads_name.bind fun n => (hR .init).bind fun init => (Reads.complainIf _ _).bind fun _ => .pure ?_
    rintro k - _ - rfl j - hinit i - hn
    exact ⟨_, .cons hn hinit (by omega), fun s => rfl⟩
  | init =>
    refine .ifEat ((hR .expr).bind fun e => .pure ?_) (.pure fun i _ => .nil (by omega))
    rintro k - j - he i rfl
    exact .cons he (.nil (by omega)) (by omega)
  | ifElse =>
    refine (Reads.expect _).bind fun _ => (hR .expr).bind fun cond => (Reads.expect _).bind fun _ =>
      (hR .nested).bind fun yes => ?_
    refine .ifEat ((hR .nested).bind fun no => .pure ?_) (.pure ?_)
    · rintro n - m - hno l rfl k - hyes j - rfl i - hcond h - rfl
      refine ⟨_, .cons hcond (.cons hyes (.cons hno (.nil ?_) ?_) ?_) ?_, fun s => rfl⟩ <;> omega
    · rintro l - k - hyes j - rfl i - hcond h - rfl
      refine ⟨_, .cons hcond (.cons hyes (.nil ?_) ?_) ?_, fun s => rfl⟩ <;> omega
  | forOf =>
    refine (Reads.expect _).bind fun _ => Reads.skipDeclKind.bind fun _ => reads_parseBinding.bind fun binding => ?_
    refine Reads.expectOf.bind fun _ => (hR .expr).bind fun iter => (Reads.expect _).bind fun _ =>
      (hR .nested).bind fun body => .pure ?_
    rintro p - o - hbody n - rfl m - hiter l hlm - k - hbinding j hjk - i - rfl
    refine ⟨_, (hbinding.widen (by omega) (by omega)).append ?_, fun s => rfl⟩
    refine .cons hiter (.cons hbody (.nil ?_) ?_) ?_ <;> omega
  | whileLoop =>
    refine (Reads.expect _).bind fun _ => (hR .expr).bind fun cond => (Reads.expect _).bind fun _ =>
      (hR .nested).bind fun body => .pure ?_
    rintro l - k - hbody j - rfl i - hcond h - rfl
    refine ⟨_, .cons hcond (.cons hbody (.nil ?_) ?_) ?_, fun s => rfl⟩ <;> omega
  | nested => exact .ifEnter ((hR .stmt).mono fun i s j _ _ h c _ => h) fun c => Moves.drain c
  | exprStmt =>
    refine (hR .expr).bind fun place => .ifTake assignment?_eq_some (fun op => ?_) (.pure fun j _ i _ h => ?_)
    · refine (hR .expr).bind fun value => (Reads.complainIf _ _).bind fun _ => .pure ?_
      rintro l - _ - rfl k - hvalue j rfl i - hplace
      have := hplace.bounds
      have := hvalue.bounds
      refine ⟨by omega, _, .cons hplace (.cons hvalue (.nil ?_) ?_) ?_, fun s => rfl⟩ <;> omega
    · exact ⟨h.bounds.1, _, .one h, fun s => rfl⟩

theorem reads_rule (r : Rule) : Reads all (parser r) (r.Post all) :=
  parser_induction (P := fun r c p => Reading all c p.value p.next (r.Post all))
    (fun _ c => ⟨default, c.complain (.expectedOf none), Nat.le_refl _⟩) (fun _ _ => .complain (Moves.refl _))
    (fun _ hR => Rules.reads_unfold hall hR) r

theorem Rules.reads_kernel (hR : ∀ r, Reads all (R r) (r.Post all)) (arrow : Bool) (t : Token) :
    ∀ x ∈ R.kernel arrow t,
    Reads all x fun j o k => ∀ i, j = i + 1 → all[i]? = some t → ∀ r ∈ o, Covers all i k r.node := by
  intro x hx
  unfold Rules.kernel at hx
  split at hx
  · cases hx
    refine (hR (.function t.span)).bind fun r => .pure ?_
    rintro k - j - hr i rfl ht _ ⟨⟩
    exact hr i rfl (spanAt_eq ht).symm
  · split at hx
    · cases hx
      have hparams : Reads all (Rules.arrowParams t) fun j ps k => ∀ i, j = i + 1 → all[i]? = some t →
          Row (Covers all) i k (ps.map Param.node) := by
        unfold Rules.arrowParams
        split
        · refine .pure ?_
          rintro _ hj i rfl ht
          exact covers_param hall (covers_word ht rfl) nofun (Nat.le_refl _) hj
        · refine (reads_parseParams hall).mono ?_
          rintro j ps k - - hps i rfl -
          exact hps.widen (by omega) (by omega)
      refine hparams.bind fun ps => (hR (.arrow t.span ps)).bind fun r => .pure ?_
      rintro l - k - hr j hjk hps i rfl ht _ ⟨⟩
      exact hr i hjk (spanAt_eq ht).symm (hps i rfl ht)
    · cases hx

theorem Rules.reads_source (hR : ∀ r, Reads all (R r) (r.Post all)) :
    Reads all R.source fun i o _ => ∀ r ∈ o, ∃ k, Covers all i k r.node := by
  have hopening : Reads all R.opening fun i o j => ∀ r ∈ o, Covers all i j r.node :=
    .ifKnown (fun c => Rules.reads_kernel hall hR c.arrowAhead) fun c => .complain (Moves.refl _)
  refine hopening.bind fun o => (Reads.skip _).bind fun _ => (Reads.complainIf _ _).bind fun _ => .pure ?_
  exact fun _ _ _ _ _ j _ _ i _ h r hr => ⟨j, h r hr⟩

end

theorem inOrder_nil : InOrder [] := ⟨nofun, nofun⟩

theorem steps_rule (r : Rule) : Reads [] (parser r) (r.Post []) := reads_rule inOrder_nil r

theorem Rules.steps_source {R : Rules} (hR : ∀ r, Reads [] (R r) (r.Post [])) :
    Reads [] R.source fun i o _ => ∀ r ∈ o, ∃ k, Covers [] i k r.node :=
  Rules.reads_source inOrder_nil hR

end ArrayKernel.Surface
