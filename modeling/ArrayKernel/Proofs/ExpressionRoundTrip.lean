import ArrayKernel.Proofs.Surface.Printing
import ArrayKernel.Proofs.Surface.Unfolding

/-!
# Reading what is written

What is written for an expression is read as that expression (`parseExpr_print`). The reader stops
in front of what takes less hold of an operand (`follow`) than the operand holds together
(`Expr.grip`).
-/

namespace ArrayKernel.Surface

open Read List

variable {α : Type} {op : BinOp} {edge least : Nat} {ls rest : List Lexeme} {c c₀ : Cursor}
  {l : Lexeme} {close : Symbol} {es : List Expr} {n : Name} {s : Span} {yes : BinOp → Read α}
  {no : Read α}

/-! ## 1. Steps on known lexemes -/

def Cursor.lexemes (c : Cursor) : List Lexeme := c.rest.map (·.lexeme)

/-- The lexemes `ls` are left, and nothing was complained about since `c₀`. -/
structure Ahead (c₀ : Cursor) (ls : List Lexeme) (c : Cursor) : Prop where
  lexemes : c.lexemes = ls
  complaints : c.complaints = c₀.complaints

structure Goes {α : Type} (x : Read α) (c : Cursor) (y : Read α) (c' : Cursor) : Prop where
  value : (x c).value = (y c').value
  next : (x c).next = (y c').next

namespace Goes

variable {α β : Type} {x y z : Read α} {c c1 c2 : Cursor}

theorem trans (h : Goes x c y c1) (h' : Goes y c1 z c2) : Goes x c z c2 :=
  ⟨h.value.trans h'.value, h.next.trans h'.next⟩

theorem bind {a : α} (h : Goes x c (pure a) c1) (f : α → Read β) : Goes (x >>= f) c (f a) c1 := by
  obtain ⟨hv, hn⟩ := h
  rcases hx : x c with ⟨b, c2, h2⟩
  rw [hx] at hv hn
  obtain rfl : b = a := hv
  obtain rfl : c2 = c1 := hn
  exact ⟨by rw [bind_of hx], by rw [bind_of hx]⟩

end Goes

theorem goes_view {β : Type} (f : Cursor → α) (x : α → Read β) (c : Cursor) :
    Goes (view f >>= x) c (x (f c)) c :=
  ⟨rfl, rfl⟩

theorem goes_unfold (r : Rule) (c : Cursor) :
    Goes (parser r) c (Rules.unfold Cursor.leave parser r) c :=
  ⟨by rw [parser_unfold], by rw [parser_unfold]⟩

namespace Ahead

variable {α : Type} {c₀ c : Cursor} {l : Lexeme} {s : Symbol} {ls : List Lexeme}

theorem token (h : Ahead c₀ (l :: ls) c) :
    ∃ t rest, c.rest = t :: rest ∧ t.lexeme = l ∧ rest.map (·.lexeme) = ls :=
  map_eq_cons_iff.1 h.lexemes

theorem advance (h : Ahead c₀ (l :: ls) c) : Ahead c₀ ls c.advance := by
  obtain ⟨t, rest, hrest, -, hls⟩ := h.token
  have hnext : c.advance = { c with rest := rest, previous := some t.span } := by
    unfold Cursor.advance
    rw [hrest]
  exact ⟨by rw [hnext]; exact hls, by rw [hnext]; exact h.complaints⟩

theorem at_ (h : Ahead c₀ ls c) (l : Lexeme) : c.at_ l = (ls.head? == some l) := by
  rw [← h.lexemes, Cursor.lexemes, head?_map]
  rfl

theorem goes_ifEat (h : Ahead c₀ (l :: ls) c) (yes no : Read α) :
    Goes (ifEat l yes no) c yes c.advance := by
  have hat : c.at_ l = true := by simp [h.at_]
  have heat : c.eat? l = some ⟨c.advance, _⟩ := dif_pos hat
  constructor
  · rw [ifEat, heat]
  · rw [ifEat, heat]

theorem goes_ifEat_no (h : Ahead c₀ ls c) (hne : ls.head? ≠ some l) (yes no : Read α) :
    Goes (ifEat l yes no) c no c := by
  have hat : ¬c.at_ l = true := by simpa [h.at_] using hne
  have heat : c.eat? l = none := dif_neg hat
  constructor
  · rw [ifEat, heat]
  · rw [ifEat, heat]

theorem goes_expect (h : Ahead c₀ (.symbol s :: ls) c) : Goes (expect s) c (pure ()) c.advance := by
  have hat : c.atSymbol s = true := by simp [Cursor.atSymbol, h.at_]
  refine ⟨rfl, ?_⟩
  show (c.expect s).1 = c.advance
  unfold Cursor.expect
  rw [if_pos hat]

theorem goes_complainIf (h : Ahead c₀ (.symbol s :: ls) c) {s' : Symbol} {f : Fault}
    (hne : (s == s') = false) : Goes (complainIf (·.atSymbol s') f) c (pure ()) c := by
  have hat : c.atSymbol s' = false := by simpa [Cursor.atSymbol, h.at_] using hne
  refine ⟨rfl, ?_⟩
  show (c.complainIf (c.atSymbol s') f).1 = c
  rw [hat]
  rfl

theorem since {c1 : Cursor} {ms : List Lexeme} (h : Ahead c1 ms c) (h1 : Ahead c₀ ls c1) :
    Ahead c₀ ms c :=
  ⟨h.lexemes, h.complaints.trans h1.complaints⟩

theorem symbol (h : Ahead c₀ (.symbol s :: ls) c) :
    ∃ span rest, c.rest = ⟨.symbol s, span⟩ :: rest := by
  obtain ⟨⟨l, span⟩, rest, hrest, rfl, -⟩ := h.token
  exact ⟨span, rest, hrest⟩

theorem goes_binary (h : Ahead c₀ (.symbol s :: ls) c) (hop : BinOp.ofToken? s = some op)
    (hleast : least ≤ op.power.1) :
    Goes (ifTake (·.binary? least) yes no) c (yes op) c.advance := by
  obtain ⟨span, rest, hrest⟩ := h.symbol
  have hsize := c.size_advance_lt (by simp [hrest])
  have htake : c.binary? least = some (op, ⟨c.advance, hsize⟩) := by
    unfold Cursor.binary?
    split
    · rename_i heq
      rw [hrest] at heq
      cases heq
      simp only [hop, if_neg (Nat.not_lt.2 hleast)]
    · rename_i hno
      exact absurd hrest (hno s span rest)
  constructor
  · rw [ifTake, htake]
  · rw [ifTake, htake]

theorem goes_unary (h : Ahead c₀ (.symbol s :: ls) c) {op : UnOp} (hop : UnOp.ofToken? s = some op)
    {yes : UnOp → Read α} {no : Read α} :
    Goes (ifTake Cursor.unary? yes no) c (yes op) c.advance := by
  obtain ⟨span, rest, hrest⟩ := h.symbol
  have hsize := c.size_advance_lt (by simp [hrest])
  have htake : c.unary? = some (op, ⟨c.advance, hsize⟩) := by
    unfold Cursor.unary?
    split
    · rename_i heq
      rw [hrest] at heq
      cases heq
      rw [hop]
      rfl
    · rename_i hno
      exact absurd hrest (hno s span rest)
  constructor
  · rw [ifTake, htake]
  · rw [ifTake, htake]

theorem goes_unary_no (h : Ahead c₀ (l :: ls) c) (hl : ∀ s, l = .symbol s → UnOp.ofToken? s = none)
    {yes : UnOp → Read α} {no : Read α} : Goes (ifTake Cursor.unary? yes no) c no c := by
  obtain ⟨⟨l, span⟩, rest, hrest, rfl, -⟩ := h.token
  have htake : c.unary? = none := by
    unfold Cursor.unary?
    split
    · rename_i heq
      rw [hrest] at heq
      cases heq
      rw [hl _ rfl]
      rfl
    · rfl
  constructor
  · rw [ifTake, htake]
  · rw [ifTake, htake]

end Ahead

/-- How tightly what follows takes hold of the operand before it: an access, a call or an arrow more
tightly than any operator, and the end not at all. -/
def follow : List Lexeme → Nat
  | .symbol s :: _ =>
    match BinOp.ofToken? s with
    | some op => op.power.1
    | none =>
      match s with
      | .dot | .leftBracket | .leftParen | .arrow => 24
      | .question => 1
      | _ => 0
  | _ => 0

theorem head?_ne_of_follow (h : follow ls < 24) :
    ls.head? ≠ some (.symbol .dot) ∧ ls.head? ≠ some (.symbol .leftBracket) ∧
      ls.head? ≠ some (.symbol .leftParen) ∧ ls.head? ≠ some (.symbol .arrow) := by
  refine ⟨?_, ?_, ?_, ?_⟩
  all_goals
    intro hhead
    obtain ⟨rest, rfl⟩ := head?_eq_some_iff.1 hhead
    exact Nat.lt_irrefl 24 h

theorem head?_ne_question (h : follow ls = 0) : ls.head? ≠ some (.symbol .question) := by
  intro hhead
  obtain ⟨rest, rfl⟩ := head?_eq_some_iff.1 hhead
  cases h

theorem BinOp.one_lt_power : 1 < op.power.1 := by
  cases op <;> decide

theorem Ahead.goes_binary_no (h : Ahead c₀ ls c) (hfollow : follow ls < max 2 least) :
    Goes (ifTake (·.binary? least) yes no) c no c := by
  have htake : c.binary? least = none := by
    unfold Cursor.binary?
    split
    · rename_i s span rest hrest
      have hls := h.lexemes
      rw [Cursor.lexemes, hrest] at hls
      split
      · rename_i op hop
        rw [← hls] at hfollow
        simp only [map_cons, follow, hop] at hfollow
        have := op.one_lt_power
        rw [if_pos (by omega)]
      · rfl
    · rfl
  constructor
  · rw [ifTake, htake]
  · rw [ifTake, htake]

/-! ## 2. Levels of reading -/

/-- Lexemes that are read as an operand and whatever is accessed or called after it. -/
def ReadsTight (ls : List Lexeme) (e : Expr) : Prop :=
  ∀ c rest, c.lexemes = ls ++ rest → rest.head? ≠ some (.symbol .arrow) →
    ∃ e' c', e'.Same e ∧ Ahead c rest c' ∧ Goes (parser .unary) c (parser (.suffixes e')) c'

/-- Lexemes that are read as an operand of operators that hold at least so tightly, unless what
follows takes hold of its end more tightly than `edge`. -/
def ReadsOperand (ls : List Lexeme) (e : Expr) (least edge : Nat) : Prop :=
  ∀ c rest, c.lexemes = ls ++ rest → follow rest < edge →
    ∃ e' c', e'.Same e ∧ Ahead c rest c' ∧ Goes (parser (.binary least)) c (parser (.operators least e')) c'

def ReadsExpr (ls : List Lexeme) (e : Expr) : Prop :=
  ∀ c rest, c.lexemes = ls ++ rest → follow rest = 0 →
    ∃ e' c', e'.Same e ∧ Ahead c rest c' ∧ Goes (parser .expr) c (pure e') c'

variable {ls : List Lexeme} {e : Expr}

theorem ReadsTight.operand (h : ReadsTight ls e) (least : Nat) : ReadsOperand ls e least 24 := by
  intro c rest hc hfollow
  obtain ⟨hdot, hbracket, hparen, harrow⟩ := head?_ne_of_follow hfollow
  obtain ⟨e', c', hsame, hahead, hgoes⟩ := h c rest hc harrow
  have hend : Goes (parser (.suffixes e')) c' (pure e') c' := by
    refine (goes_unfold _ _).trans ((hahead.goes_ifEat_no hdot _ _).trans ?_)
    exact (hahead.goes_ifEat_no hbracket _ _).trans (hahead.goes_ifEat_no hparen _ _)
  exact ⟨e', c', hsame, hahead, (goes_unfold _ _).trans ((hgoes.trans hend).bind _)⟩

theorem goes_operators (hahead : Ahead c₀ rest c)
    (hfollow : follow rest < max 2 least) : Goes (parser (.operators least e)) c (pure e) c :=
  (goes_unfold _ _).trans (hahead.goes_binary_no hfollow)

theorem ReadsOperand.expr (h : ReadsOperand ls e 0 edge) (hedge : 0 < edge) : ReadsExpr ls e := by
  intro c rest hc hfollow
  obtain ⟨e', c', hsame, hahead, hgoes⟩ := h c rest hc (by omega)
  have hcond : Goes (parser (.binary 0)) c (pure e') c' := hgoes.trans (goes_operators hahead (by omega))
  refine ⟨e', c', hsame, hahead, (goes_unfold _ _).trans ((hcond.bind _).trans ?_)⟩
  exact hahead.goes_ifEat_no (head?_ne_question hfollow) _ _

/-! ## 3. Names, literals and parentheses -/

theorem goes_primary {t : Token} {rest : List Token} {x : Read Expr} (hrest : c.rest = t :: rest)
    (hx : parser.primary c.arrowAhead t = some x) : Goes (parser .primary) c x c.advance := by
  refine (goes_unfold _ _).trans ?_
  rcases hnext : c.next? with _ | ⟨t', c1, h1⟩
  · rw [next?_eq_none hnext] at hrest
    cases hrest
  · obtain ⟨rest', hrest', hadvance⟩ := next?_eq_some hnext
    rw [hrest] at hrest'
    obtain rfl : t = t' := (List.cons.inj hrest').1
    obtain rfl : c1 = c.advance := hadvance
    constructor
    · simp only [Rules.unfold, ifKnown, hnext, hx]
    · simp only [Rules.unfold, ifKnown, hnext, hx]

theorem goes_operand {c' : Cursor} (h : Ahead c₀ (l :: ls) c)
    (hl : ∀ s, l = .symbol s → UnOp.ofToken? s = none)
    (hprimary : Goes (parser .primary) c (pure e) c') :
    Goes (parser .unary) c (parser (.suffixes e)) c' :=
  (goes_unfold _ _).trans ((goes_view _ _ _).trans ((h.goes_unary_no hl).trans (hprimary.bind _)))

theorem arrowAhead_eq_false (hc : c.lexemes = l :: rest) (hl : l ≠ .symbol .leftParen)
    (hrest : rest.head? ≠ some (.symbol .arrow)) : c.arrowAhead = false := by
  obtain ⟨t, ts, hts, ht, hls⟩ := map_eq_cons_iff.1 hc
  unfold Cursor.arrowAhead
  rw [hts]
  split
  · rename_i heq
    cases heq
    rw [← head?_map, hls]
    simpa using hrest
  · rename_i heq
    cases heq
    exact absurd ht.symm hl
  · rfl

theorem readsTight_single (hl : ∀ s, l ≠ .symbol s)
    (h : ∀ span, ∃ e' : Expr, e'.Same e ∧ parser.primary false ⟨l, span⟩ = some (pure e')) :
    ReadsTight [l] e := by
  intro c rest hc hrest
  have hahead : Ahead c (l :: rest) c := ⟨hc, rfl⟩
  obtain ⟨⟨l', span⟩, ts, hts, rfl, -⟩ := hahead.token
  obtain ⟨e', hsame, hprimary⟩ := h span
  refine ⟨e', c.advance, hsame, hahead.advance, goes_operand hahead (fun s hs => absurd hs (hl s))
    (goes_primary hts ?_)⟩
  rw [arrowAhead_eq_false hc (hl _) hrest]
  exact hprimary

theorem Expr.Same.withSpan {e' : Expr} (h : e'.Same e) (s : Span) : (e'.withSpan s).Same e := by
  cases h <;> constructor <;> assumption

theorem ReadsExpr.parens (h : ReadsExpr ls e) (hbalanced : Balanced ls) :
    ReadsTight (.symbol .leftParen :: (ls ++ [.symbol .rightParen])) e := by
  intro c rest hc hrest
  have hahead : Ahead c (.symbol .leftParen :: (ls ++ .symbol .rightParen :: rest)) c := ⟨by rw [hc]; simp, rfl⟩
  obtain ⟨span, ts, hts⟩ := hahead.symbol
  have harrow : c.arrowAhead = false := by
    have hclose : arrowCloses 1 (.symbol .rightParen :: rest) = false := by
      rw [arrowCloses_one]
      simpa using hrest
    unfold Cursor.arrowAhead
    rw [hts]
    show Cursor.arrowAfterClose 0 (⟨.symbol .leftParen, span⟩ :: ts) = false
    rw [← hts, arrowAfterClose_eq, ← Cursor.lexemes, hahead.lexemes, ← hclose, ← hbalanced 1 _ Nat.one_pos]
    rfl
  obtain ⟨e', c1, hsame, hinner, hgoes⟩ := h c.advance (.symbol .rightParen :: rest) hahead.advance.lexemes rfl
  have hclose : Ahead c (.symbol .rightParen :: rest) c1 := hinner.since hahead.advance
  have hcomma : Goes (complainIf (·.atSymbol .comma) .commaExpression) c1 (pure ()) c1 := hclose.goes_complainIf rfl
  refine ⟨e'.withSpan (span.merge c1.advance.behind), c1.advance, hsame.withSpan _, hclose.advance, ?_⟩
  refine goes_operand hahead (fun _ h => by cases h; rfl) ((goes_primary hts (by rw [harrow]; rfl)).trans ?_)
  refine (hgoes.bind _).trans ((hcomma.bind _).trans ((hclose.goes_expect.bind _).trans ?_))
  exact goes_view _ _ _

/-! ## 4. Lists and members -/

def ReadsItems (close : Symbol) (ls : List Lexeme) (es : List Expr) : Prop :=
  ∀ c rest, c.lexemes = ls ++ .symbol close :: rest →
    ∃ es' c', Forall₂ Expr.Same es' es ∧ Ahead c (.symbol close :: rest) c' ∧
      Goes (parser (.list close)) c (pure es') c'

theorem Starts.goes_more (h : Starts ls) (hc : Ahead c₀ (ls ++ rest) c)
    (hclose : (Lexeme.symbol close).startsExpr = false) (yes no : Read α) :
    Goes (ifAt (fun c => c.atSymbol close || c.atEnd) yes no) c no c := by
  obtain ⟨l, tail, rfl, hl⟩ := h
  have hne : l ≠ .symbol close := by
    rintro rfl
    rw [hclose] at hl
    cases hl
  obtain ⟨t, ts, hts, -, -⟩ := hc.token
  have hmore : (c.atSymbol close || c.atEnd) = false := by
    simp [Cursor.atSymbol, hc.at_, hne, Cursor.atEnd, hts]
  constructor
  · simp only [ifAt, hmore]
    rfl
  · simp only [ifAt, hmore]
    rfl

theorem Ahead.goes_done (h : Ahead c₀ (.symbol close :: rest) c) {yes : Read α} :
    Goes (ifAt (fun c => c.atSymbol close || c.atEnd) yes no) c yes c := by
  have hdone : (c.atSymbol close || c.atEnd) = true := by simp [Cursor.atSymbol, h.at_]
  constructor
  · simp only [ifAt, hdone]
    rfl
  · simp only [ifAt, hdone]
    rfl

theorem readsItems (hclose : close = .rightBracket ∨ close = .rightParen)
    (h : ∀ e ∈ es, ReadsExpr e.print e ∧ Starts e.print) : ReadsItems close (printItems es) es := by
  have hstart : (Lexeme.symbol close).startsExpr = false := by
    rcases hclose with rfl | rfl <;> rfl
  have hfollow (rest : List Lexeme) : follow (.symbol close :: rest) = 0 := by
    rcases hclose with rfl | rfl <;> rfl
  induction es with
  | nil =>
    intro c rest hc
    have hahead : Ahead c (.symbol close :: rest) c := ⟨hc, rfl⟩
    exact ⟨[], c, .nil, hahead, (goes_unfold _ _).trans hahead.goes_done⟩
  | cons e es ih =>
    obtain ⟨hfirst, hstarts⟩ := h e (mem_cons_self ..)
    intro c rest hc
    cases es with
    | nil =>
      obtain ⟨e', c1, hsame, hahead, hgoes⟩ := hfirst c _ hc (hfollow rest)
      refine ⟨[e'], c1, .cons hsame .nil, hahead, (goes_unfold _ _).trans ?_⟩
      refine (hstarts.goes_more ⟨hc, rfl⟩ hstart _ _).trans ((hgoes.bind _).trans ?_)
      exact hahead.goes_ifEat_no (by rcases hclose with rfl | rfl <;> simp) _ _
    | cons e2 es =>
      rw [printItems_cons_cons, append_assoc] at hc
      obtain ⟨e', c1, hsame, hahead, hgoes⟩ := hfirst c _ hc rfl
      obtain ⟨es', c2, hsames, hrest, hmore⟩ :=
        ih (fun e he => h e (mem_cons_of_mem _ he)) c1.advance rest hahead.advance.lexemes
      refine ⟨e' :: es', c2, .cons hsame hsames, hrest.since hahead.advance, (goes_unfold _ _).trans ?_⟩
      refine (hstarts.goes_more ⟨hc, rfl⟩ hstart _ _).trans ((hgoes.bind _).trans ?_)
      exact (hahead.goes_ifEat _ _).trans (hmore.bind _)

theorem Ahead.goes_name {n : String} (h : Ahead c₀ (.identifier n :: rest) c) :
    ∃ s, Goes Cursor.name c (pure ⟨n, s⟩) c.advance := by
  obtain ⟨⟨l, span⟩, ts, hts, rfl, -⟩ := h.token
  refine ⟨span, ?_, ?_⟩
  · unfold Cursor.name
    rw [hts]
    rfl
  · unfold Cursor.name
    rw [hts]
    rfl

theorem Ahead.goes_memberName (h : Ahead c₀ (memberLexeme n :: rest) c) :
    ∃ s, Goes Cursor.memberName c (pure ⟨n.text, s⟩) c.advance := by
  obtain ⟨⟨l, span⟩, ts, hts, hl, -⟩ := h.token
  refine ⟨span, ?_⟩
  unfold memberLexeme at hl
  split at hl
  · rename_i hconst
    cases hl
    rw [hconst]
    constructor <;> (unfold Cursor.memberName; rw [hts]) <;> rfl
  · split at hl
    · rename_i hof
      cases hl
      rw [hof]
      constructor <;> (unfold Cursor.memberName; rw [hts]) <;> rfl
    · cases hl
      constructor <;> (unfold Cursor.memberName Cursor.name; rw [hts]) <;> rfl

theorem goes_memberValue {v : Expr} (hv : ReadsExpr v.print v) (n : Name)
    (h : Ahead c₀ (.symbol .colon :: (v.print ++ rest)) c) (hfollow : follow rest = 0) :
    ∃ v' c', v'.Same v ∧ Ahead c₀ rest c' ∧ Goes (parser (.memberValue n)) c (pure v') c' := by
  obtain ⟨v', c1, hsame, hahead, hgoes⟩ := hv c.advance rest h.advance.lexemes hfollow
  refine ⟨v', c1, hsame, hahead.since h.advance, (goes_unfold _ _).trans ?_⟩
  exact (h.goes_ifEat _ _).trans hgoes

theorem readsMembers {ms : List Member} (h : ∀ m ∈ ms, ReadsExpr m.value.print m.value) (c : Cursor)
    (rest : List Lexeme) (hc : c.lexemes = printMembers ms ++ .symbol .rightBrace :: rest) :
    ∃ ms' c', ms'.map (·.name.text) = ms.map (·.name.text) ∧
      Forall₂ Expr.Same (ms'.map (·.value)) (ms.map (·.value)) ∧ Ahead c (.symbol .rightBrace :: rest) c' ∧
      Goes (parser .members) c (pure ms') c' := by
  induction ms generalizing c with
  | nil =>
    have hahead : Ahead c (.symbol .rightBrace :: rest) c := ⟨hc, rfl⟩
    exact ⟨[], c, rfl, .nil, hahead, (goes_unfold _ _).trans hahead.goes_done⟩
  | cons m ms ih =>
    obtain ⟨n, v⟩ := m
    have hvalue : ReadsExpr v.print v := h (.mk n v) (mem_cons_self ..)
    have hstarts : Starts [.identifier n.text] := ⟨_, _, rfl, rfl⟩
    cases ms with
    | nil =>
      have hahead : Ahead c (.identifier n.text :: .symbol .colon ::
        (v.print ++ .symbol .rightBrace :: rest)) c := ⟨hc, rfl⟩
      obtain ⟨s, hname⟩ := hahead.goes_name
      obtain ⟨v', c1, hsame, hend, hgoes⟩ := goes_memberValue hvalue ⟨n.text, s⟩ hahead.advance rfl
      refine ⟨[.mk ⟨n.text, s⟩ v'], c1, rfl, .cons hsame .nil, hend, (goes_unfold _ _).trans ?_⟩
      refine (hstarts.goes_more hahead rfl _ _).trans ((hname.bind _).trans ((hgoes.bind _).trans ?_))
      exact hend.goes_ifEat_no (by simp) _ _
    | cons m ms =>
      rw [printMembers_cons_cons] at hc
      have hahead : Ahead c (.identifier n.text :: .symbol .colon :: (v.print ++ .symbol .comma ::
          (printMembers (m :: ms) ++ .symbol .rightBrace :: rest))) c := ⟨by simpa using hc, rfl⟩
      obtain ⟨s, hname⟩ := hahead.goes_name
      obtain ⟨v', c1, hsame, hend, hgoes⟩ := goes_memberValue hvalue ⟨n.text, s⟩ hahead.advance rfl
      obtain ⟨ms', c2, hnames, hsames, hrest, hmore⟩ :=
        ih (fun m hm => h m (mem_cons_of_mem _ hm)) c1.advance hend.advance.lexemes
      refine ⟨.mk ⟨n.text, s⟩ v' :: ms', c2, ?_, .cons hsame hsames, hrest.since hend.advance,
        (goes_unfold _ _).trans ?_⟩
      · exact congrArg (n.text :: ·) hnames
      · refine (hstarts.goes_more hahead rfl _ _).trans ((hname.bind _).trans ((hgoes.bind _).trans ?_))
        exact (hend.goes_ifEat _ _).trans (hmore.bind _)

/-! ## 5. Accesses and calls -/

theorem goes_member (h : Ahead c₀ (.symbol .dot :: memberLexeme n :: rest) c) (e : Expr) :
    ∃ s n' c', n'.text = n.text ∧ Ahead c₀ rest c' ∧ Goes (parser (.suffixes e)) c
      (parser (.suffixes (.member s e n'))) c' := by
  obtain ⟨s, hname⟩ := h.advance.goes_memberName
  refine ⟨e.span.merge s, ⟨n.text, s⟩, c.advance.advance, rfl, h.advance.advance, (goes_unfold _ _).trans ?_⟩
  exact (h.goes_ifEat _ _).trans (hname.bind _)

theorem goes_index (hes : ReadsItems .rightBracket ls es)
    (h : Ahead c₀ (.symbol .leftBracket :: (ls ++ .symbol .rightBracket :: rest)) c) (e : Expr) :
    ∃ s es' c', Forall₂ Expr.Same es' es ∧ Ahead c₀ rest c' ∧
      Goes (parser (.suffixes e)) c (parser (.suffixes (.index s e es'))) c' := by
  obtain ⟨es', c1, hsame, hahead, hgoes⟩ := hes c.advance rest h.advance.lexemes
  refine ⟨e.span.merge c1.advance.behind, es', c1.advance, hsame, (hahead.since h.advance).advance,
    (goes_unfold _ _).trans ?_⟩
  refine (h.goes_ifEat_no (by simp) _ _).trans ((h.goes_ifEat _ _).trans ((hgoes.bind _).trans ?_))
  exact (hahead.goes_expect.bind _).trans (goes_view _ _ _)

theorem goes_call (hes : ReadsItems .rightParen ls es)
    (h : Ahead c₀ (.symbol .leftParen :: (ls ++ .symbol .rightParen :: rest)) c) (e : Expr) :
    ∃ s es' c', Forall₂ Expr.Same es' es ∧ Ahead c₀ rest c' ∧
      Goes (parser (.suffixes e)) c (parser (.suffixes (.call s e es'))) c' := by
  obtain ⟨es', c1, hsame, hahead, hgoes⟩ := hes c.advance rest h.advance.lexemes
  refine ⟨e.span.merge c1.advance.behind, es', c1.advance, hsame, (hahead.since h.advance).advance,
    (goes_unfold _ _).trans ?_⟩
  refine (h.goes_ifEat_no (by simp) _ _).trans ((h.goes_ifEat_no (by simp) _ _).trans ?_)
  refine (h.goes_ifEat _ _).trans ((hgoes.bind _).trans ?_)
  exact (hahead.goes_expect.bind _).trans (goes_view _ _ _)

/-! ## 6. Operands in their places -/

/-- An expression that is read from what is written for it, at every level that it fits. -/
structure Readable (e : Expr) : Prop where
  expr : ReadsExpr e.print e
  operand : 0 < e.grip.1 → ∀ least ≤ e.grip.1, ReadsOperand e.print e least e.grip.2
  tight : 24 ≤ e.grip.2 → ReadsTight e.print e
  balanced : Balanced e.print
  starts : Starts e.print

namespace Readable

theorem of_tight (hprint : e.Printable) (hgrip : e.grip = (24, 24)) (h : ReadsTight e.print e) :
    Readable e where
  expr := (h.operand 0).expr (by omega)
  operand _ least _ := by
    rw [hgrip]
    exact h.operand least
  tight _ := h
  balanced := hprint.balanced
  starts := hprint.starts

theorem of_operand (hprint : e.Printable) (hpos : 0 < e.grip.2) (hloose : e.grip.2 < 24)
    (h : ∀ least ≤ e.grip.1, ReadsOperand e.print e least e.grip.2) : Readable e where
  expr := (h 0 (Nat.zero_le _)).expr hpos
  operand _ := h
  tight htight := absurd htight (by omega)
  balanced := hprint.balanced
  starts := hprint.starts

theorem base (h : Readable e) : ReadsTight (wrap (24 ≤ e.grip.2) e.print) e := by
  by_cases htight : 24 ≤ e.grip.2
  · rw [decide_eq_true htight]
    exact h.tight htight
  · rw [decide_eq_false htight]
    exact h.expr.parens h.balanced

theorem wrapped (h : Readable e) {bare : Bool}
    (hfits : bare = true → 0 < e.grip.1 ∧ least ≤ e.grip.1 ∧ edge ≤ e.grip.2) (hedge : edge ≤ 24) :
    ReadsOperand (wrap bare e.print) e least edge := by
  intro c rest hc hfollow
  cases bare with
  | true =>
    obtain ⟨hpos, hleast, hle⟩ := hfits rfl
    exact h.operand hpos least hleast c rest hc (Nat.lt_of_lt_of_le hfollow hle)
  | false => exact (h.expr.parens h.balanced).operand least c rest hc (Nat.lt_of_lt_of_le hfollow hedge)

end Readable

theorem BinOp.power_le : op.power.1 ≤ 23 ∧ op.power.2 ≤ UnOp.power ∧ 0 < op.power.2 := by
  cases op <;> decide

/-- What an operator to the right does not tear apart, one to the left that holds no tighter does
not. -/
theorem power_le_grip (h : op.power.1 < e.grip.2) : op.power.1 ≤ e.grip.1 := by
  have hop := op.power_le.1
  unfold Expr.grip at h ⊢
  split at h
  · exact absurd h (Nat.not_lt_zero _)
  · rename_i op' _ _
    cases op <;> cases op' <;> revert h <;> decide
  all_goals
    omega

theorem le_grip {p : Nat} (hpos : 0 < p) (hp : p ≤ UnOp.power) (h : p ≤ e.grip.1) :
    p ≤ e.grip.2 := by
  have hpower : UnOp.power = 22 := rfl
  unfold Expr.grip at h ⊢
  split at h
  · omega
  · rename_i op _ _
    cases op <;> simp only [BinOp.power] at h ⊢ <;> omega
  all_goals
    omega

theorem two_le_grip (h : 0 < e.grip.1) : 2 ≤ e.grip.1 := by
  unfold Expr.grip at h ⊢
  split at h
  · omega
  · rename_i op _ _
    exact op.one_lt_power
  all_goals decide

theorem readable_unary {op : UnOp} (hprint : (Expr.unary s op e).Printable) (h : Readable e) :
    Readable (.unary s op e) := by
  refine .of_operand hprint (Nat.zero_lt_succ 21) (Nat.lt_succ_of_lt (Nat.lt_succ_self 22))
    fun least _ c rest hc hfollow => ?_
  have hahead : Ahead c (.symbol op.token :: (wrap (UnOp.power ≤ e.grip.1) e.print ++ rest)) c := ⟨hc, rfl⟩
  have hreads : ReadsOperand (wrap (UnOp.power ≤ e.grip.1) e.print) e UnOp.power UnOp.power := by
    refine h.wrapped (fun hbare => ?_) (by decide)
    have hle : UnOp.power ≤ e.grip.1 := by simpa using hbare
    exact ⟨Nat.lt_of_lt_of_le (by decide) hle, hle, le_grip (by decide) (Nat.le_refl _) hle⟩
  obtain ⟨e', c1, hsame, hend, hgoes⟩ := hreads c.advance rest hahead.advance.lexemes hfollow
  have hoperand : Goes (parser (.binary UnOp.power)) c.advance (pure e') c1 :=
    hgoes.trans (goes_operators hend (Nat.lt_of_lt_of_le hfollow (Nat.le_max_right _ _)))
  have hunary : Goes (parser .unary) c (pure (.unary (c.here.merge e'.span) op e')) c1 := by
    refine (goes_unfold _ _).trans ((goes_view _ _ _).trans ?_)
    exact (hahead.goes_unary op.ofToken?_token).trans (hoperand.bind _)
  exact ⟨_, c1, .unary _ _ op hsame, hend.since hahead.advance, (goes_unfold _ _).trans (hunary.bind _)⟩

theorem readable_binary {lhs rhs : Expr} {t : Symbol} (ht : op.token? = some t)
    (hprint : (Expr.binary s op lhs rhs).Printable) (hl : Readable lhs) (hr : Readable rhs) :
    Readable (.binary s op lhs rhs) := by
  obtain ⟨hleft, hright, hpos⟩ := op.power_le
  have hpower : UnOp.power = 22 := rfl
  refine .of_operand hprint hpos (show op.power.2 < 24 by omega) fun least hleast c rest hc hfollow => ?_
  have hop := BinOp.ofToken?_token? ht
  have hlhs : ReadsOperand (wrap (op.power.1 < lhs.grip.2) lhs.print) lhs least (op.power.1 + 1) := by
    refine hl.wrapped (fun hbare => ?_) (by omega)
    have hlt : op.power.1 < lhs.grip.2 := by simpa using hbare
    have hle := power_le_grip hlt
    exact ⟨Nat.lt_of_lt_of_le (by have := op.one_lt_power; omega) hle, Nat.le_trans hleast hle, hlt⟩
  have hrhs : ReadsOperand (wrap (op.power.2 ≤ rhs.grip.1) rhs.print) rhs op.power.2 op.power.2 := by
    refine hr.wrapped (fun hbare => ?_) (by omega)
    have hle : op.power.2 ≤ rhs.grip.1 := by simpa using hbare
    exact ⟨Nat.lt_of_lt_of_le hpos hle, hle, le_grip hpos hright hle⟩
  -- the operator takes hold of the left operand just as tightly as that one allows
  have htake : follow (.symbol t :: (wrap (op.power.2 ≤ rhs.grip.1) rhs.print ++ rest)) < op.power.1 + 1 := by
    simp only [follow, hop]
    omega
  obtain ⟨l', c1, hsamel, hmid, hgoesl⟩ := hlhs c _ (by rw [hc, Expr.print, ht]; simp) htake
  obtain ⟨r', c2, hsamer, hend, hgoesr⟩ := hrhs c1.advance rest hmid.advance.lexemes hfollow
  have hrhs' : Goes (parser (.binary op.power.2)) c1.advance (pure r') c2 :=
    hgoesr.trans (goes_operators hend (Nat.lt_of_lt_of_le hfollow (Nat.le_max_right _ _)))
  refine ⟨.binary (l'.span.merge r'.span) op l' r', c2, .binary _ _ op hsamel hsamer, hend.since hmid.advance, ?_⟩
  refine hgoesl.trans ((goes_unfold _ _).trans ?_)
  exact (hmid.goes_binary hop hleast).trans (hrhs'.bind _)

theorem readable_conditional {cond yes no : Expr}
    (hprint : (Expr.conditional s cond yes no).Printable) (hc : Readable cond) (hy : Readable yes)
    (hn : Readable no) : Readable (.conditional s cond yes no) := by
  have hcond : ReadsOperand (wrap (0 < cond.grip.1) cond.print) cond 0 2 := by
    refine hc.wrapped (fun hbare => ?_) (by decide)
    have hlt : 0 < cond.grip.1 := by simpa using hbare
    exact ⟨hlt, Nat.zero_le _, le_grip (by decide) (by decide) (two_le_grip hlt)⟩
  refine ⟨fun c rest hlex hfollow => ?_, fun h => absurd h (Nat.lt_irrefl 0),
    fun h => absurd h (by simp [Expr.grip]), hprint.balanced, hprint.starts⟩
  obtain ⟨c', c1, hsamec, hask, hgoesc⟩ := hcond c
    (.symbol .question :: (yes.print ++ .symbol .colon :: (no.print ++ rest)))
    (by rw [hlex, Expr.print]; simp) (Nat.lt_succ_self 1)
  obtain ⟨y', c2, hsamey, hcolon, hgoesy⟩ := hy.expr c1.advance _ hask.advance.lexemes rfl
  obtain ⟨n', c3, hsamen, hend, hgoesn⟩ := hn.expr c2.advance _ hcolon.advance.lexemes hfollow
  have hcond' : Goes (parser (.binary 0)) c (pure c') c1 := hgoesc.trans (goes_operators hask (Nat.lt_succ_self 1))
  refine ⟨.conditional (c'.span.merge n'.span) c' y' n', c3, .conditional _ _ hsamec hsamey hsamen,
    (hend.since hcolon.advance).since hask.advance, (goes_unfold _ _).trans ((hcond'.bind _).trans ?_)⟩
  refine (hask.goes_ifEat _ _).trans ((hgoesy.bind _).trans ?_)
  exact (hcolon.goes_expect.bind _).trans (hgoesn.bind _)

theorem readable_array {items : List Expr} (hprint : (Expr.array s items).Printable)
    (h : ∀ e ∈ items, Readable e) : Readable (.array s items) := by
  refine .of_tight hprint rfl fun c rest hc _ => ?_
  rw [Expr.print] at hc
  have hahead : Ahead c (.symbol .leftBracket :: (printItems items ++ .symbol .rightBracket :: rest)) c :=
    ⟨by simpa using hc, rfl⟩
  obtain ⟨span, ts, hts⟩ := hahead.symbol
  have hitems := readsItems (.inl rfl) fun e he => ⟨(h e he).expr, (h e he).starts⟩
  obtain ⟨es', c1, hsame, hend, hgoes⟩ := hitems c.advance rest hahead.advance.lexemes
  refine ⟨.array (span.merge c1.advance.behind) es', c1.advance, .array _ _ hsame,
    (hend.since hahead.advance).advance, ?_⟩
  refine goes_operand hahead (fun _ h => by cases h; rfl) ((goes_primary hts rfl).trans ((hgoes.bind _).trans ?_))
  exact (hend.goes_expect.bind _).trans (goes_view _ _ _)

theorem readable_object {members : List Member} (hprint : (Expr.object s members).Printable)
    (h : ∀ m ∈ members, Readable m.value) : Readable (.object s members) := by
  refine .of_tight hprint rfl fun c rest hc _ => ?_
  rw [Expr.print] at hc
  have hahead : Ahead c (.symbol .leftBrace :: (printMembers members ++ .symbol .rightBrace :: rest)) c :=
    ⟨by simpa using hc, rfl⟩
  obtain ⟨span, ts, hts⟩ := hahead.symbol
  obtain ⟨ms', c1, hnames, hsame, hend, hgoes⟩ :=
    readsMembers (fun m hm => (h m hm).expr) c.advance rest hahead.advance.lexemes
  refine ⟨.object (span.merge c1.advance.behind) ms', c1.advance, .object _ _ hnames hsame,
    (hend.since hahead.advance).advance, ?_⟩
  refine goes_operand hahead (fun _ h => by cases h; rfl) ((goes_primary hts rfl).trans ((hgoes.bind _).trans ?_))
  exact (hend.goes_expect.bind _).trans (goes_view _ _ _)

/-! ## 7. Every expression is read from what is written for it -/

theorem Expr.Printable.readable (h : e.Printable) : Readable e := by
  induction h with
  | int s n =>
    refine .of_tight (.int s n) rfl ?_
    exact readsTight_single (by simp) fun span => ⟨.int span n, .int _ _ n, rfl⟩
  | bool s b =>
    refine .of_tight (.bool s b) rfl ?_
    exact readsTight_single (by simp) fun span => ⟨.bool span b, .bool _ _ b, by cases b <;> rfl⟩
  | var s n =>
    refine .of_tight (.var s n) rfl ?_
    exact readsTight_single (by simp) fun span => ⟨.var span n, .var _ _ n, rfl⟩
  | this s =>
    refine .of_tight (.this s) rfl ?_
    exact readsTight_single (by simp) fun span => ⟨.this span, .this _ _, rfl⟩
  | array s h ih => exact readable_array (.array s h) ih
  | object s h ih => exact readable_object (.object s h) ih
  | member s h n ih =>
    refine .of_tight (.member s h n) rfl fun c rest hc _ => ?_
    rw [Expr.print, append_assoc] at hc
    obtain ⟨b', c1, hsame, hmid, hgoes⟩ := ih.base c _ hc (by simp)
    obtain ⟨s', n', c2, hn, hend, hmore⟩ := goes_member hmid b'
    exact ⟨.member s' b' n', c2, .member _ _ hsame hn, hend, hgoes.trans hmore⟩
  | index s h hs ih ihs =>
    refine .of_tight (.index s h hs) rfl fun c rest hc _ => ?_
    rw [Expr.print] at hc
    obtain ⟨b', c1, hsame, hmid, hgoes⟩ := ih.base c _ (by rw [hc, append_assoc]) (by simp)
    have hitems := readsItems (.inl rfl) fun e he => ⟨(ihs e he).expr, (ihs e he).starts⟩
    obtain ⟨s', es', c2, hsames, hend, hmore⟩ := goes_index hitems ⟨by simpa using hmid.lexemes, hmid.complaints⟩ b'
    exact ⟨.index s' b' es', c2, .index _ _ hsame hsames, hend, hgoes.trans hmore⟩
  | call s h hs ih ihs =>
    refine .of_tight (.call s h hs) rfl fun c rest hc _ => ?_
    rw [Expr.print] at hc
    obtain ⟨f', c1, hsame, hmid, hgoes⟩ := ih.base c _ (by rw [hc, append_assoc]) (by simp)
    have hitems := readsItems (.inr rfl) fun e he => ⟨(ihs e he).expr, (ihs e he).starts⟩
    obtain ⟨s', es', c2, hsames, hend, hmore⟩ := goes_call hitems ⟨by simpa using hmid.lexemes, hmid.complaints⟩ f'
    exact ⟨.call s' f' es', c2, .call _ _ hsame hsames, hend, hgoes.trans hmore⟩
  | unary s op h ih => exact readable_unary (.unary s op h) ih
  | binary s ht hl hr ihl ihr => exact readable_binary ht (.binary s ht hl hr) ihl ihr
  | conditional s hc hy hn ihc ihy ihn => exact readable_conditional (.conditional s hc hy hn) ihc ihy ihn

/-- What is written for an expression is read to its end, without a complaint, and as that
expression. -/
theorem parseExpr_print (he : e.Printable) {c : Cursor} (hc : c.rest.map (·.lexeme) = e.print) :
    (parseExpr c).next.rest = [] ∧ (parseExpr c).next.complaints = c.complaints ∧ (parseExpr c).value.Same e := by
  obtain ⟨e', c', hsame, hahead, hgoes⟩ := he.readable.expr c [] (by rw [List.append_nil]; exact hc) rfl
  have hvalue : (parseExpr c).value = e' := hgoes.value
  have hnext : (parseExpr c).next = c' := hgoes.next
  rw [hvalue, hnext]
  exact ⟨List.map_eq_nil_iff.1 hahead.lexemes, hahead.complaints, hsame⟩

/-- `(-x) ** a.of ** 2 ? -x ** 2 : [1]` keeps its one pair of parentheses. -/
theorem parseExpr_print_powers :
    let s : Span := ⟨0, 0, 0⟩
    let x : Expr := .var s "x"
    let power : Expr := .binary s .pow (.unary s .neg x) (.binary s .pow (.member s (.var s "a") ⟨"of", s⟩) (.int s 2))
    let e : Expr := .conditional s power (.unary s .neg (.binary s .pow x (.int s 2))) (.array s [.int s 1])
    let c : Cursor := { rest := e.print.map (⟨·, s⟩), stop := s }
    e.print = [.symbol .leftParen, .symbol .minus, .identifier "x", .symbol .rightParen,
      .symbol .starStar, .identifier "a",
      .symbol .dot, .keyword .of, .symbol .starStar, .integer 2, .symbol .question, .symbol .minus, .identifier "x",
      .symbol .starStar, .integer 2, .symbol .colon, .symbol .leftBracket, .integer 1, .symbol .rightBracket] ∧
    (parseExpr c).next.rest = [] ∧ (parseExpr c).next.complaints = [] ∧ (parseExpr c).value.Same e := by
  intro s x power e c
  have hx : x.Printable := .var s "x"
  have hpower : power.Printable := .binary s rfl (.unary s _ hx) (.binary s rfl (.member s (.var s _) _) (.int s _))
  have he : e.Printable :=
    .conditional s hpower (.unary s _ (.binary s rfl hx (.int s _))) (.array s (by simpa using .int s 1))
  refine ⟨?_, parseExpr_print he ?_⟩
  · rfl
  · simp [c, Function.comp_def]

end ArrayKernel.Surface
