import Mathlib.Logic.Function.Iterate
import ArrayKernel.Proofs.Surface.Rules

/-!
# The grammar follows its rules

`Rules.unfold` has one solution in total functions, `parser`, since a rule asks only for what is
smaller (`AgreeBelow.unfold`). So what every rule keeps if the rules that it calls do, the parser
keeps (`parser_induction`).
-/

namespace ArrayKernel.Surface

/-! ## 1. Steps that do the same -/

namespace Read

variable {α β : Type} {c : Cursor}

theorem bind_congr {x y : Read α} {f g : α → Read β} (hx : x c = y c)
    (hf : ∀ a c1 h1, y c = ⟨a, c1, h1⟩ → f a c1 = g a c1) : (x >>= f) c = (y >>= g) c := by
  rcases hy : y c with ⟨a, c1, h1⟩
  rw [bind_of hy, bind_of (hx.trans hy), hf a c1 h1 hy]

theorem ifTake_congr {f : (c : Cursor) → Option (β × Cursor.Past c)} {yes yes' : β → Read α}
    {no no' : Read α} (hyes : ∀ b c1, c1.size < c.size → yes b c1 = yes' b c1)
    (hno : no c = no' c) : ifTake f yes no c = ifTake f yes' no' c := by
  unfold ifTake
  rcases f c with _ | ⟨b, c1, h1⟩
  · exact hno
  · simp only [hyes b c1 h1]

theorem ifKnown_congr {f f' : Cursor → Token → Option (Read α)} {no no' : Read α}
    (hyes : ∀ t c1, c1.size < c.size → (f c t).map (· c1) = (f' c t).map (· c1))
    (hno : no c = no' c) : ifKnown f no c = ifKnown f' no' c := by
  unfold ifKnown
  rcases c.next? with _ | ⟨t, c1, h1⟩
  · exact hno
  · have h := hyes t c1 h1
    dsimp only
    cases hf : f c t <;> cases hf' : f' c t <;> simp only [hf, hf'] at h
    · exact hno
    · cases h
    · cases h
    · simp only [Option.some.inj h]

theorem ifEat_congr {l : Lexeme} {yes yes' no no' : Read α}
    (hyes : ∀ c1, c1.size < c.size → yes c1 = yes' c1) (hno : no c = no' c) :
    ifEat l yes no c = ifEat l yes' no' c := by
  unfold ifEat
  rcases c.eat? l with _ | ⟨c1, h1⟩
  · exact hno
  · simp only [hyes c1 h1]

theorem ifAt_congr {p : Cursor → Bool} {yes yes' no no' : Read α}
    (hyes : p c = true → yes c = yes' c) (hno : p c = false → no c = no' c) :
    ifAt p yes no c = ifAt p yes' no' c := by
  unfold ifAt
  cases hp : p c with
  | true => exact hyes hp
  | false => exact hno hp

theorem ifEnter_congr {yes yes' no no' : Read α} (hyes : yes c.enter.next = yes' c.enter.next)
    (hno : no c.enter.next = no' c.enter.next) : ifEnter yes no c = ifEnter yes' no' c := by
  unfold ifEnter
  rcases henter : c.enter with ⟨allowed, c1, h1, _⟩
  rw [henter] at hyes hno
  simp only [hyes, hno]

theorem progressing_of {x : Read α} (h : 0 < c.size) :
    progressing x c = ⟨(x c).value, (Cursor.progress c (x c).next (x c).le h).1,
      Nat.le_of_lt (Cursor.progress c (x c).next (x c).le h).2⟩ :=
  dif_pos h

theorem progressing_congr {x y : Read α} (h : x c = y c) : progressing x c = progressing y c := by
  unfold progressing
  simp only [h]

end Read

/-! ## 2. The grammar follows the rules -/

open Read Option

variable {c : Cursor} {t : Token}

theorem next?_eq_none (h : c.next? = none) : c.rest = [] := by
  unfold Cursor.next? at h
  split at h
  · cases h
  · assumption

theorem next?_eq_some {c1 : Cursor.Past c} (h : c.next? = some (t, c1)) :
    ∃ rest, c.rest = t :: rest ∧ c1.1 = c.advance := by
  unfold Cursor.next? at h
  split at h
  · rename_i heq
    cases h
    exact ⟨_, heq, rfl⟩
  · cases h

theorem parser_primary : Rules.unfold Cursor.leave parser .primary c = parsePrimary c := by
  rw [parsePrimary, Rules.unfold, ifKnown]
  rcases hn : c.next? with _ | ⟨⟨l, start⟩, c1, h1⟩
  · have hrest := next?_eq_none hn
    have hmove : (c.complain (.expectedExpression c.peek?)).advance = c.complain (.expectedExpression none) := by
      simp only [Cursor.advance, Cursor.complain, Cursor.peek?, hrest, List.head?_nil, map_none]
    show (⟨.int c.here 0, (c.complain (.expectedExpression c.peek?)).advance, _⟩ : Parsed c Expr) = _
    simp only [hmove]
  · obtain ⟨rest, hrest, -⟩ := next?_eq_some hn
    have hmissing : (⟨.int c.here 0, (c.complain (.expectedExpression c.peek?)).advance, Cursor.size_advance_le _⟩ :
        Parsed c Expr) = ⟨.int start 0, (c.complain (.expectedExpression (some l))).advance,
          Cursor.size_advance_le _⟩ := by
      simp only [Cursor.here, Cursor.peek?, hrest, List.head?_cons, map_some]
    cases l with
    | integer n | float v => rfl
    | identifier n =>
      simp only [Rules.primary]
      cases c.arrowAhead <;> rfl
    | symbol s =>
      cases s with
      | leftParen =>
        cases c.arrowAhead <;> rfl
      | leftBracket | leftBrace => rfl
      | _ => exact hmissing
    | keyword k =>
      cases k with
      | true_ | false_ | this | function => rfl
      | _ => exact hmissing

theorem parser_stmtBody : Rules.unfold Cursor.leave parser .stmtBody c = parseStmtBody c := by
  rw [parseStmtBody, Rules.unfold, ifAt, ifAt, ifKnown]
  rcases hn : c.next? with _ | ⟨⟨l, start⟩, c1, h1⟩
  · have hrest := next?_eq_none hn
    simp only [Cursor.atSymbol, Cursor.at_, Cursor.peek?, hrest]
    rfl
  · obtain ⟨rest, hrest, -⟩ := next?_eq_some hn
    have hat (s : Symbol) : c.atSymbol s = (l == .symbol s) := by
      simp only [Cursor.atSymbol, Cursor.at_, Cursor.peek?, hrest]
      rfl
    simp only [hat]
    cases l with
    | integer n | float v | identifier n => rfl
    | symbol s =>
      cases s with
      | leftBrace | semicolon | _ => rfl
    | keyword k =>
      cases k with
      | return_ =>
        by_cases hstop : (c1.atSymbol .semicolon || c1.atSymbol .rightBrace || c1.atEnd) = true
        · simp only [Rules.statement, ifAt, hstop]
          rfl
        · simp only [Rules.statement, ifAt, hstop]
          rfl
      | _ => rfl

theorem parser_unfold {r : Rule} : Rules.unfold Cursor.leave parser r c = parser r c := by
  cases r with
  | expr =>
    show _ = parseExpr c
    rcases hp : parser (.binary 0) c with ⟨cond, c1, h1⟩
    rw [parseExpr, Rules.unfold, bind_of hp, ifEat, show parseBinary 0 c = _ from hp]
    dsimp only [Cursor.eatSymbol?]
    cases c1.eat? (.symbol .question) <;> rfl
  | binary least =>
    show _ = parseBinary least c
    rw [parseBinary]
    rfl
  | operators least lhs =>
    show _ = parseOperators least lhs c
    rw [parseOperators, Rules.unfold, ifTake]
    cases c.binary? least <;> rfl
  | unary =>
    show _ = parseUnary c
    rw [parseUnary, Rules.unfold, bind_of rfl, ifTake]
    cases c.unary? <;> rfl
  | suffixes e =>
    show _ = parsePostfix e c
    rw [parsePostfix]
    rfl
  | primary => exact parser_primary
  | list close =>
    show _ = parseList close c
    rw [parseList, Rules.unfold, ifAt]
    split
    · rfl
    · rcases hp : parser .expr c with ⟨e, c1, h1⟩
      rw [bind_of hp, ifEat, show parseExpr c = _ from hp]
      dsimp only [Cursor.eatSymbol?]
      cases c1.eat? (.symbol .comma) <;> rfl
  | members =>
    show _ = parseMembers c
    rw [parseMembers, Rules.unfold, ifAt]
    split
    · rfl
    · rcases hp : c.name with ⟨n, c1, h1⟩
      rcases hq : parser (.memberValue n) c1 with ⟨v, c2, h2⟩
      rw [bind_of hp, bind_of hq, ifEat]
      dsimp only [Cursor.eatSymbol?]
      rw [show parseMemberValue n c1 = _ from hq]
      cases c2.eat? (.symbol .comma) <;> rfl
  | memberValue n =>
    show _ = parseMemberValue n c
    rw [parseMemberValue]
    rfl
  | arrow start params =>
    show _ = parseArrow start params c
    rcases hp : c.expect .arrow with ⟨c1, h1⟩
    have hexpect : expect .arrow c = ⟨(), c1, h1⟩ := by rw [expect, move]; simp only [hp]
    rw [parseArrow, Rules.unfold, bind_of hexpect, ifAt, hp]
    dsimp only
    cases c1.atSymbol .leftBrace <;> rfl
  | function start =>
    show _ = parseFunction start c
    rw [parseFunction]
    rfl
  | block =>
    show _ = parseBlock c
    rw [parseBlock, Rules.unfold, bind_of rfl]
    rfl
  | stmts =>
    show _ = parseStmts c
    rw [parseStmts, Rules.unfold, ifAt]
    split
    · rfl
    · rename_i hmore
      have hpos : 0 < c.size := Cursor.size_pos (by simp_all)
      rw [bind_of (progressing_of hpos)]
      rfl
  | stmt =>
    show _ = parseStmt c
    rw [parseStmt]
    rfl
  | stmtBody => exact parser_stmtBody
  | decl kind =>
    show _ = parseDecl kind c
    rw [parseDecl]
    rfl
  | init =>
    show _ = parseInit c
    rw [parseInit]
    rfl
  | ifElse =>
    show _ = parseIf c
    rcases hp : c.expect .leftParen with ⟨c1, h1⟩
    have hexpect : expect .leftParen c = ⟨(), c1, h1⟩ := by rw [expect, move]; simp only [hp]
    rcases hcond : parser .expr c1 with ⟨cond, c2, h2⟩
    rcases hq : c2.expect .rightParen with ⟨c3, h3⟩
    have hexpect' : expect .rightParen c2 = ⟨(), c3, h3⟩ := by rw [expect, move]; simp only [hq]
    rcases hyes : parser .nested c3 with ⟨yes, c4, h4⟩
    rw [parseIf, Rules.unfold, bind_of hexpect, bind_of hcond, bind_of hexpect', bind_of hyes, ifEat, hp]
    dsimp only
    rw [show parseExpr c1 = _ from hcond]
    rw [hq]
    rw [show parseNested c3 = _ from hyes]
    cases c4.eat? (.keyword .else_) <;> rfl
  | forOf =>
    show _ = parseFor c
    rw [parseFor]
    rfl
  | whileLoop =>
    show _ = parseWhile c
    rw [parseWhile]
    rfl
  | nested =>
    show _ = parseNested c
    rw [parseNested]
    rfl
  | exprStmt =>
    show _ = parseExprStmt c
    rcases hp : parser .expr c with ⟨place, c1, h1⟩
    rw [parseExprStmt, Rules.unfold, bind_of hp, ifTake, show parseExpr c = _ from hp]
    dsimp only
    cases c1.assignment? <;> rfl

theorem parseRoutine_eq : parseRoutine c = ((parser.opening c).value, (parser.opening c).next) := by
  unfold parseRoutine
  rw [Rules.opening, ifKnown]
  rcases hn : c.next? with _ | ⟨⟨l, start⟩, c1, h1⟩
  · have hrest := next?_eq_none hn
    show _ = (none, c.complain (.expectedKernel c.peek?))
    rw [show c.peek? = none by rw [Cursor.peek?, hrest]; rfl]
  · obtain ⟨rest, hrest, -⟩ := next?_eq_some hn
    have hpeek : c.peek? = some l := by rw [Cursor.peek?, hrest]; rfl
    have hnone : (none, c.complain (.expectedKernel (some l)))
        = ((none, c.complain (.expectedKernel c.peek?)) : Option Routine × Cursor) := by rw [hpeek]
    cases harrow : c.arrowAhead with
    | false =>
      cases l with
      | keyword k =>
        cases k with
        | function => rfl
        | _ => exact hnone
      | _ => exact hnone
    | true =>
      cases l with
      | keyword k => cases k <;> rfl
      | _ => rfl

theorem ofTokens_eq (tokens : List Token) (stop : Span) :
    Routine.ofTokens tokens stop =
      match (parser.source { rest := tokens, stop }).value,
        (parser.source { rest := tokens, stop }).next.complaints with
      | some r, [] => .ok r
      | _, complaints => .error complaints.reverse := by
  unfold Routine.ofTokens
  rw [parseRoutine_eq]
  rfl

/-! ## 3. Following the rules ends -/

/-- A cursor where a level is closed: behind a block, or behind a nested statement. -/
inductive Closing : Cursor → Prop where
  | block (c : Cursor) : Closing ((parseStmts (c.enter.next.expect .leftBrace).1).next.expect .rightBrace).1
  | nested (c : Cursor) : Closing (parseStmt c.enter.next).next

variable {leave : (c : Cursor) → Cursor.Onward c} {R : Rules} {r : Rule} {c c' c1 : Cursor}
  {n : Nat}

def AgreeBelow (R : Rules) (r : Rule) (c : Cursor) : Prop :=
  ∀ (r' : Rule) (c' : Cursor), r'.measure c' < r.measure c → R r' c' = parser r' c'

theorem AgreeBelow.down (h : AgreeBelow R r c) (r' : Rule) (hsize : c'.size ≤ r.room c)
    (hlevel : r'.level < r.level) : R r' c' = parser r' c' :=
  h r' c' (Rule.measure_lt_of_level hsize hlevel)

theorem AgreeBelow.on (h : AgreeBelow R r c) (r' : Rule) (hsize : c'.size < r.room c) :
    R r' c' = parser r' c' :=
  h r' c' (Rule.measure_lt_of_size hsize)

theorem AgreeBelow.primary (h : AgreeBelow R .primary c) (arrow : Bool) (t : Token)
    (h1 : c1.size < c.size) :
    (R.primary arrow t).map (· c1) = (parser.primary arrow t).map (· c1) := by
  obtain ⟨l, start⟩ := t
  cases l with
  | integer n | float v => rfl
  | identifier n =>
    cases arrow with
    | false => rfl
    | true => exact congrArg some (bind_congr (h.on _ h1) fun _ _ _ _ => rfl)
  | keyword k =>
    cases k with
    | function => exact congrArg some (bind_congr (h.on _ h1) fun _ _ _ _ => rfl)
    | _ => rfl
  | symbol s =>
    cases s with
    | leftParen =>
      cases arrow with
      | false => exact congrArg some (bind_congr (h.on _ h1) fun _ _ _ _ => rfl)
      | true =>
        refine congrArg some (bind_congr rfl fun ps c2 h2 _ => ?_)
        exact bind_congr (h.on _ (Nat.lt_of_le_of_lt h2 h1)) fun _ _ _ _ => rfl
    | leftBracket | leftBrace => exact congrArg some (bind_congr (h.on _ h1) fun _ _ _ _ => rfl)
    | _ => rfl

theorem AgreeBelow.statement (h : AgreeBelow R .stmtBody c) (t : Token) (h1 : c1.size < c.size) :
    (R.statement t).map (· c1) = (parser.statement t).map (· c1) := by
  obtain ⟨l, start⟩ := t
  cases l with
  | keyword k =>
    cases k with
    | let_ | const | var => exact congrArg some (h.on _ h1)
    | function => exact congrArg some (bind_congr (h.on _ h1) fun _ _ _ _ => rfl)
    | if_ | for_ | while_ => exact congrArg some (h.on _ h1)
    | return_ =>
      exact congrArg some (ifAt_congr (fun _ => rfl) fun _ => bind_congr (h.on _ h1) fun _ _ _ _ => rfl)
    | _ => rfl
  | _ => rfl

/-- A rule asks only for what is smaller, and closes only levels that are open. -/
theorem AgreeBelow.unfold (hleave : ∀ c, Closing c → leave c = c.leave) (h : AgreeBelow R r c) :
    Rules.unfold leave R r c = parser r c := by
  rw [← parser_unfold]
  cases r with
  | expr =>
    refine bind_congr (h.down _ (Nat.le_refl _) (by simp [Rule.level])) fun cond c1 h1 _ => ?_
    refine ifEat_congr (fun c2 h2 => ?_) rfl
    have h2 : c2.size < c.size := by omega
    refine bind_congr (h.on _ h2) fun yes c3 h3 _ => bind_congr rfl fun _ c4 h4 _ => ?_
    exact bind_congr (h.on _ (by show c4.size < c.size; omega)) fun _ _ _ _ => rfl
  | binary least =>
    refine bind_congr (h.down _ (Nat.le_refl _) (by simp [Rule.level])) fun lhs c1 h1 _ => ?_
    exact h.down _ h1 (by simp [Rule.level])
  | operators least lhs =>
    rw [Rules.unfold, Rules.unfold]
    refine ifTake_congr (fun op c1 h1 => ?_) rfl
    exact bind_congr (h.on _ h1) fun rhs c2 h2 _ => h.on _ (Nat.lt_of_le_of_lt h2 h1)
  | unary =>
    refine bind_congr rfl fun start c0 h0 _ => ifTake_congr (fun op c1 h1 => ?_) ?_
    · exact bind_congr (h.on _ (Nat.lt_of_lt_of_le h1 h0)) fun _ _ _ _ => rfl
    · refine bind_congr (h.down _ h0 (by simp [Rule.level])) fun e c1 h1 _ => ?_
      exact h.down _ (Nat.le_trans h1 h0) (by simp [Rule.level])
  | suffixes e =>
    refine ifEat_congr (fun c1 h1 => ?_) (ifEat_congr (fun c1 h1 => ?_) (ifEat_congr (fun c1 h1 => ?_) rfl))
    · exact bind_congr rfl fun n c2 h2 _ => h.on _ (Nat.lt_of_le_of_lt h2 h1)
    all_goals
      refine bind_congr (h.on _ h1) fun items c2 h2 _ => bind_congr rfl fun _ c3 h3 _ => ?_
      exact bind_congr rfl fun s c4 h4 _ => h.on _ (by show c4.size < c.size; omega)
  | primary =>
    rw [Rules.unfold, Rules.unfold]
    exact ifKnown_congr (fun t c1 h1 => h.primary _ t h1) rfl
  | list close =>
    rw [Rules.unfold, Rules.unfold]
    refine ifAt_congr (fun _ => rfl) fun _ => ?_
    refine bind_congr (h.down _ (Nat.le_refl _) (by simp [Rule.level])) fun e c1 h1 _ => ?_
    exact ifEat_congr (fun c2 h2 => bind_congr (h.on _ (Nat.lt_of_lt_of_le h2 h1)) fun _ _ _ _ => rfl) rfl
  | members =>
    rw [Rules.unfold, Rules.unfold]
    refine ifAt_congr (fun _ => rfl) fun _ => bind_congr rfl fun n c1 h1 _ => ?_
    refine bind_congr (h.down _ h1 (by simp [Rule.level])) fun v c2 h2 _ => ifEat_congr (fun c3 h3 => ?_) rfl
    exact bind_congr (h.on _ (by show c3.size < c.size; omega)) fun _ _ _ _ => rfl
  | memberValue n => exact ifEat_congr (fun c1 h1 => h.on _ h1) rfl
  | arrow start params =>
    refine bind_congr rfl fun _ c1 h1 _ => ifAt_congr (fun _ => ?_) fun _ => ?_
    · exact bind_congr (h.down _ h1 (by simp [Rule.level])) fun _ _ _ _ => rfl
    · exact bind_congr (h.down _ h1 (by simp [Rule.level])) fun _ _ _ _ => rfl
  | function start =>
    refine bind_congr rfl fun name c1 h1 _ => bind_congr rfl fun _ c2 h2 _ => bind_congr rfl fun ps c3 h3 _ => ?_
    exact bind_congr (h.down _ (by show c3.size ≤ c.size; omega) (by simp [Rule.level])) fun _ _ _ _ => rfl
  | block =>
    refine bind_congr rfl fun start c0 _ hc0 => ?_
    obtain rfl : c = c0 := congrArg Parsed.next hc0
    refine ifEnter_congr (bind_congr rfl fun _ c2 _ hc2 => ?_) rfl
    obtain rfl : (c.enter.next.expect .leftBrace).1 = c2 := congrArg Parsed.next hc2
    have hsize : (c.enter.next.expect .leftBrace).1.size ≤ c.bodySize :=
      Nat.le_trans (Cursor.size_expect_brace _) (Nat.le_of_eq c.enter.bodySize_eq)
    refine bind_congr (h.down _ hsize (by simp [Rule.level])) fun body c3 _ hc3 => bind_congr rfl fun _ c4 _ hc4 => ?_
    obtain rfl : (parseStmts _).next = c3 := congrArg Parsed.next hc3
    obtain rfl : Subtype.val _ = c4 := congrArg Parsed.next hc4
    refine bind_congr ?_ fun _ _ _ _ => rfl
    simp only [move, hleave _ (.block c)]
  | stmts =>
    rw [Rules.unfold, Rules.unfold]
    refine ifAt_congr (fun _ => rfl) fun hmore => ?_
    have hpos : 0 < c.size := Cursor.size_pos (by simp_all)
    refine bind_congr (progressing_congr (h.down _ (Nat.le_refl _) (by simp [Rule.level]))) fun s c1 _ hc1 => ?_
    rw [progressing_of hpos] at hc1
    obtain rfl : Subtype.val _ = c1 := congrArg Parsed.next hc1
    exact bind_congr (h.on _ (Cursor.progress ..).2) fun _ _ _ _ => rfl
  | stmt =>
    refine bind_congr rfl fun start c0 h0 _ => ?_
    exact bind_congr (h.down _ h0 (by simp [Rule.level])) fun _ _ _ _ => rfl
  | stmtBody =>
    rw [Rules.unfold, Rules.unfold]
    refine ifAt_congr (fun hbrace => ?_) fun _ => ifAt_congr (fun _ => rfl) fun _ => ?_
    · have hbody := Cursor.bodySize_lt hbrace
      refine bind_congr (h .block c ?_) fun _ _ _ _ => rfl
      simp only [Rule.measure, Rule.room, Rule.level]
      omega
    · exact ifKnown_congr (fun t c1 h1 => h.statement t h1) (h.down _ (Nat.le_refl _) (by simp [Rule.level]))
  | decl kind =>
    refine bind_congr rfl fun n c1 h1 _ => ?_
    exact bind_congr (h.down _ h1 (by simp [Rule.level])) fun _ _ _ _ => rfl
  | init => exact ifEat_congr (fun c1 h1 => bind_congr (h.on _ h1) fun _ _ _ _ => rfl) rfl
  | ifElse =>
    refine bind_congr rfl fun _ c1 h1 _ => ?_
    refine bind_congr (h.down _ h1 (by simp [Rule.level])) fun cond c2 h2 _ => bind_congr rfl fun _ c3 h3 _ => ?_
    refine bind_congr (h.down _ (by show c3.size ≤ c.size; omega) (by simp [Rule.level])) fun yes c4 h4 _ => ?_
    refine ifEat_congr (fun c5 h5 => ?_) rfl
    exact bind_congr (h.on _ (by show c5.size < c.size; omega)) fun _ _ _ _ => rfl
  | forOf =>
    refine bind_congr rfl fun _ c1 h1 _ => bind_congr rfl fun _ c2 h2 _ => bind_congr rfl fun binding c3 h3 _ => ?_
    refine bind_congr rfl fun _ c4 h4 _ => ?_
    refine bind_congr (h.down _ (by show c4.size ≤ c.size; omega) (by simp [Rule.level])) fun iter c5 h5 _ => ?_
    refine bind_congr rfl fun _ c6 h6 _ => ?_
    exact bind_congr (h.down _ (by show c6.size ≤ c.size; omega) (by simp [Rule.level])) fun _ _ _ _ => rfl
  | whileLoop =>
    refine bind_congr rfl fun _ c1 h1 _ => ?_
    refine bind_congr (h.down _ h1 (by simp [Rule.level])) fun cond c2 h2 _ => bind_congr rfl fun _ c3 h3 _ => ?_
    exact bind_congr (h.down _ (by show c3.size ≤ c.size; omega) (by simp [Rule.level])) fun _ _ _ _ => rfl
  | nested =>
    refine ifEnter_congr ?_ rfl
    refine bind_congr (h.down _ (Nat.le_of_eq c.enter.size_eq) (by simp [Rule.level])) fun s c2 _ hc2 => ?_
    obtain rfl : (parseStmt _).next = c2 := congrArg Parsed.next hc2
    refine bind_congr ?_ fun _ _ _ _ => rfl
    simp only [move, hleave _ (.nested c)]
  | exprStmt =>
    refine bind_congr (h.down _ (Nat.le_refl _) (by simp [Rule.level])) fun place c1 h1 _ => ?_
    exact ifTake_congr (fun op c2 h2 => bind_congr (h.on _ (Nat.lt_of_lt_of_le h2 h1)) fun _ _ _ _ => rfl) rfl

/-- However a call past so many nested ones is answered, it is not asked for. -/
theorem iterate_unfold (hleave : ∀ c, Closing c → leave c = c.leave) (stuck : Rules)
    (hn : r.measure c < n) : (Rules.unfold leave)^[n] stuck r c = parser r c := by
  induction n generalizing r c with
  | zero => exact absurd hn (Nat.not_lt_zero _)
  | succ n ih =>
    rw [Function.iterate_succ_apply']
    exact AgreeBelow.unfold hleave fun r' c' h => ih (by omega)

theorem Rules.kernel_congr (h : ∀ r c, c.size < n → R r c = parser r c) {arrow : Bool}
    (hc : c.size < n) : (R.kernel arrow t).map (· c) = (parser.kernel arrow t).map (· c) := by
  unfold Rules.kernel
  split
  · exact congrArg some (bind_congr (h _ _ hc) fun _ _ _ _ => rfl)
  · split
    · refine congrArg some (bind_congr rfl fun ps c1 h1 _ => ?_)
      exact bind_congr (h _ _ (Nat.lt_of_le_of_lt h1 hc)) fun _ _ _ _ => rfl
    · rfl

theorem Rules.source_congr (h : ∀ r c', c'.size < c.size → R r c' = parser r c') :
    R.source c = parser.source c :=
  bind_congr (ifKnown_congr (fun _ _ hc1 => Rules.kernel_congr h hc1) rfl) fun _ _ _ _ => rfl

theorem eq_parser_iff : R = Rules.unfold Cursor.leave R ↔ R = parser := by
  constructor
  · intro hR
    funext r c
    rw [← iterate_unfold (fun _ _ => rfl) R (Nat.lt_succ_self (r.measure c)), Function.iterate_fixed hR.symm]
  · rintro rfl
    funext r c
    exact parser_unfold.symm

instance (r : Rule) : Inhabited r.Out := by
  cases r <;> exact inferInstance

/-- What every rule keeps if the rules that it calls do, the parser keeps. It starts from what some
rules keep. -/
theorem parser_induction {P : (r : Rule) → (c : Cursor) → Parsed c r.Out → Prop} (stuck : Rules)
    (hstuck : ∀ r c, P r c (stuck r c))
    (step : ∀ R : Rules, (∀ r c, P r c (R r c)) → ∀ r c, P r c (Rules.unfold Cursor.leave R r c))
    (r : Rule) (c : Cursor) : P r c (parser r c) := by
  have hiterate (n : Nat) : ∀ r c, P r c ((.unfold Cursor.leave)^[n] stuck r c) := by
    induction n with
    | zero => exact hstuck
    | succ n ih =>
      rw [Function.iterate_succ_apply']
      exact step _ ih
  rw [← iterate_unfold (fun _ _ => rfl) stuck (Nat.lt_succ_self (r.measure c))]
  exact hiterate _ r c

end ArrayKernel.Surface
