import ArrayKernel.Proofs.Surface.Nodes
import ArrayKernel.Proofs.Surface.Unfolding

/-!
# How rules move a cursor

Tokens are only taken and complaints are only added, and a level stays open only with a complaint
(`Moves`). What is read on the way is told by the indices of its first token and of the token
behind it (`Reads`).
-/

namespace ArrayKernel.Surface

open List

/-! ## 1. Moves -/

structure Moves (c c' : Cursor) : Prop where
  rest : c'.rest <:+ c.rest
  depth : c.depth ≤ c'.depth
  complaints : c.complaints <:+ c'.complaints
  /-- Without a complaint, all levels that were opened are closed. -/
  level : c'.complaints = c.complaints → c'.depth = c.depth

namespace Moves

variable {c c1 c2 : Cursor}

theorem refl (c : Cursor) : Moves c c :=
  ⟨suffix_refl _, Nat.le_refl _, suffix_refl _, fun _ => rfl⟩

theorem complaints_eq (h : Moves c c1) (h' : Moves c1 c2) (hsame : c2.complaints = c.complaints) :
    c1.complaints = c.complaints :=
  (h.complaints.eq_of_length_le (hsame ▸ h'.complaints.length_le)).symm

theorem trans (h : Moves c c1) (h' : Moves c1 c2) : Moves c c2 where
  rest := h'.rest.trans h.rest
  depth := Nat.le_trans h.depth h'.depth
  complaints := h.complaints.trans h'.complaints
  level hsame := by
    have hfirst := h.complaints_eq h' hsame
    rw [h'.level (hsame.trans hfirst.symm), h.level hfirst]

theorem of_rest (hrest : c1.rest <:+ c.rest) (hdepth : c1.depth = c.depth)
    (hsame : c1.complaints = c.complaints) : Moves c c1 :=
  ⟨hrest, Nat.le_of_eq hdepth.symm, hsame ▸ suffix_refl _, fun _ => hdepth⟩

theorem advance (c : Cursor) : Moves c c.advance := by
  unfold Cursor.advance
  split
  · rename_i t r heq
    exact of_rest (heq ▸ suffix_cons t r) rfl rfl
  · exact refl c

theorem complain (c : Cursor) (f : Fault) : Moves c (c.complain f) where
  rest := suffix_refl _
  depth := Nat.le_refl _
  complaints := suffix_cons _ _
  level hsame := absurd (congrArg List.length hsame) (by simp [Cursor.complain])

theorem complainIf (c : Cursor) (bad : Bool) (f : Fault) : Moves c (c.complainIf bad f).1 := by
  unfold Cursor.complainIf
  split
  · exact complain c f
  · exact refl c

theorem expect (c : Cursor) (s : Symbol) : Moves c (c.expect s).1 := by
  unfold Cursor.expect
  split
  · exact advance c
  · exact complain c _

theorem skip (c : Cursor) (s : Symbol) : Moves c (c.skip s).1 := by
  unfold Cursor.skip
  split
  · exact advance c
  · exact refl c

theorem drain (c : Cursor) : Moves c c.drain.1 := of_rest (nil_suffix) rfl rfl

theorem skipUntil (c : Cursor) (s : Symbol) : Moves c (c.skipUntil s).1 :=
  of_rest (dropWhile_suffix _) rfl rfl

theorem progress (c c' : Cursor) (h : c'.size ≤ c.size) (pos : 0 < c.size) :
    Moves c' (Cursor.progress c c' h pos).1 := by
  unfold Cursor.progress
  split
  · exact advance c'
  · exact refl c'

theorem leave (h : Moves { c with depth := c.depth + 1 } c1) : Moves c c1.leave.1 := by
  have hdepth : c.depth + 1 ≤ c1.depth := h.depth
  refine ⟨h.rest, ?_, h.complaints, fun hsame => ?_⟩
  · show c.depth ≤ c1.depth - 1
    omega
  · have hlevel : c1.depth = c.depth + 1 := h.level hsame
    show c1.depth - 1 = c.depth
    omega

theorem enter_of_full {f : Fault} : Moves c ({ c with depth := c.depth + 1 }.complain f) where
  rest := suffix_refl _
  depth := Nat.le_succ _
  complaints := suffix_cons _ _
  level hsame := absurd (congrArg List.length hsame) (by simp [Cursor.complain])

end Moves

/-! ## 2. Steps that move -/

variable {c : Cursor} {c1 : Cursor.Past c} {l : Lexeme}

theorem eat?_eq_some (h : c.eat? l = some c1) : c1.1 = c.advance := by
  grind [Cursor.eat?]

theorem unary?_eq_some {op : UnOp} (h : c.unary? = some (op, c1)) : c1.1 = c.advance := by
  grind [Cursor.unary?, Option.map_eq_some_iff]

theorem binary?_eq_some {least : Nat} {op : BinOp} (h : c.binary? least = some (op, c1)) :
    c1.1 = c.advance := by
  grind [Cursor.binary?]

theorem assignment?_eq_some {op : AssignOp} (h : c.assignment? = some (op, c1)) :
    c1.1 = c.advance := by
  grind [Cursor.assignment?, Option.map_eq_some_iff]

open Read

/-! ## 3. Reading from a place -/

/-- The cursor stands before the token at `i`. -/
structure At (all : List Token) (c : Cursor) (i : Nat) : Prop where
  le : i ≤ all.length
  rest : c.rest = all.drop i
  previous : 0 < i → c.previous = some (spanAt all (i - 1))

variable {all : List Token} {c c1 c2 : Cursor} {i j k : Nat} {t : Token} {ts : List Token}
  {α β : Type}

namespace At

theorem next (h : At all c i) (hc : c.rest = t :: ts) :
    all[i]? = some t ∧ At all c.advance (i + 1) := by
  have hdrop : all.drop i = t :: ts := h.rest.symm.trans hc
  have hget : all[i]? = some t := by rw [← Nat.add_zero i, ← getElem?_drop, hdrop, getElem?_cons_zero]
  refine ⟨hget, (List.getElem?_eq_some_iff.1 hget).1, ?_, fun _ => ?_⟩
  · rw [Cursor.advance, hc, ← tail_drop, hdrop]
    rfl
  · rw [Cursor.advance, hc, Nat.add_sub_cancel, spanAt, getD_eq_getElem?_getD, hget]
    rfl

theorem here (h : At all c i) (hi : i < all.length) : c.here = spanAt all i := by
  rw [Cursor.here, h.rest, drop_eq_getElem_cons hi, spanAt, getD_eq_getElem?_getD, getElem?_eq_getElem hi]
  rfl

theorem behind (h : At all c i) (hi : 0 < i) : c.behind = spanAt all (i - 1) := by
  rw [Cursor.behind, h.previous hi, Option.getD_some]

end At

/-- A value is read between two cursors. Unless something is complained about, `V` says which
tokens it was read from. -/
structure Reading (all : List Token) (c : Cursor) (a : α) (c1 : Cursor) (V : Nat → α → Nat → Prop) :
    Prop
    extends moves : Moves c c1 where
  reads {i : Nat} (hi : At all c i) (hsame : c1.complaints = c.complaints) : ∃ j, i ≤ j ∧ At all c1 j ∧ V i a j

def Reads (all : List Token) (x : Read α) (V : Nat → α → Nat → Prop) : Prop :=
  ∀ c, Reading all c (x c).value (x c).next V

variable {V : Nat → α → Nat → Prop} {W : Nat → β → Nat → Prop} {a : α} {b : β}

namespace Reading

theorem trans (h : Reading all c a c1 V)
    (h' : Reading all c1 b c2 fun j b k => ∀ i ≤ j, V i a j → W i b k) : Reading all c b c2 W := by
  refine ⟨h.moves.trans h'.moves, fun {i} hi hsame => ?_⟩
  have hfirst := h.moves.complaints_eq h'.moves hsame
  obtain ⟨j, hij, hj, hV⟩ := h.reads hi hfirst
  obtain ⟨k, hjk, hk, hW⟩ := h'.reads hj (hsame.trans hfirst.symm)
  exact ⟨k, Nat.le_trans hij hjk, hk, hW i hij hV⟩

theorem mono (h : Reading all c a c1 V) (hV : ∀ i, ∀ j ≤ all.length, i ≤ j → V i a j → W i b j) :
    Reading all c b c1 W := by
  refine ⟨h.moves, fun hi hsame => ?_⟩
  obtain ⟨j, hij, hj, hval⟩ := h.reads hi hsame
  exact ⟨j, hij, hj, hV _ j hj.le hij hval⟩

/-- What comes with a complaint may be anything. -/
theorem complain {f : Fault} (h : Moves (c.complain f) c1) : Reading all c a c1 V := by
  refine ⟨(Moves.complain c f).trans h, fun _ hsame => ?_⟩
  have hlen := h.complaints.length_le
  rw [hsame] at hlen
  exact absurd hlen (by simp [Cursor.complain])

theorem advance (hc : c.rest = t :: ts) (hV : ∀ i, all[i]? = some t → V i a (i + 1)) :
    Reading all c a c.advance V := by
  refine ⟨.advance c, fun {i} hi _ => ?_⟩
  obtain ⟨hget, hnext⟩ := hi.next hc
  exact ⟨i + 1, Nat.le_succ i, hnext, hV i hget⟩

theorem stay (hV : ∀ i, At all c i → V i a i) : Reading all c a c V :=
  ⟨Moves.refl c, fun {i} hi _ => ⟨i, Nat.le_refl i, hi, hV i hi⟩⟩

theorem take (hsize : c.advance.size < c.size)
    (h : Reading all c.advance a c1 fun j a k => ∀ i, j = i + 1 → V i a k) :
    Reading all c a c1 V := by
  cases hc : c.rest with
  | nil =>
    rw [Cursor.advance, hc] at hsize
    exact absurd hsize (Nat.lt_irrefl _)
  | cons t ts =>
    have hfirst : Reading all c () c.advance fun i _ j => j = i + 1 := .advance hc fun _ _ => rfl
    exact hfirst.trans (h.mono fun _ _ _ _ hV i _ hi => hV i hi)

theorem onward : Reading all c () c.advance fun _ _ _ => True := by
  cases hc : c.rest with
  | nil =>
    rw [Cursor.advance, hc]
    exact .stay fun _ _ => trivial
  | cons t ts => exact .advance hc fun _ _ => trivial

end Reading

namespace Reads

variable {x yes no : Read α} {f : α → Read β}

theorem bind (hx : Reads all x V)
    (hf : ∀ a, Reads all (f a) fun j b k => ∀ i ≤ j, V i a j → W i b k) : Reads all (x >>= f) W :=
  fun c => (hx c).trans (hf _ _)

theorem mono {V' : Nat → α → Nat → Prop} (hx : Reads all x V)
    (hV : ∀ i a, ∀ j ≤ all.length, i ≤ j → V i a j → V' i a j) : Reads all x V' :=
  fun c => (hx c).mono fun i j => hV i _ j

theorem pure (h : ∀ i ≤ all.length, V i a i) : Reads all (Pure.pure a) V :=
  fun _ => .stay fun i hi => h i hi.le

theorem here : Reads all Read.here fun i s j => j = i ∧ (i < all.length → s = spanAt all i) :=
  fun _ => .stay fun _ hi => ⟨rfl, hi.here⟩

theorem behind : Reads all Read.behind fun i s j => j = i ∧ (0 < i → s = spanAt all (i - 1)) :=
  fun _ => .stay fun _ hi => ⟨rfl, hi.behind⟩

theorem expect (s : Symbol) : Reads all (Read.expect s) fun i _ j => j = i + 1 := by
  intro c
  show Reading all c () (c.expect s).1 _
  unfold Cursor.expect
  split
  · next hat =>
    obtain ⟨t, ts, hc⟩ := exists_cons_of_ne_nil (Cursor.rest_ne_nil_of_at hat)
    exact .advance hc fun _ _ => rfl
  · exact .complain (.refl _)

theorem complainIf (bad : Cursor → Bool) (f : Cursor → Fault) :
    Reads all (move fun c => c.complainIf (bad c) (f c)) fun i _ j => j = i := by
  intro c
  show Reading all c () (c.complainIf (bad c) (f c)).1 _
  unfold Cursor.complainIf
  split
  · exact .complain (.refl _)
  · exact .stay fun _ _ => rfl

theorem skip (s : Symbol) :
    Reads all (move (·.skip s)) fun i _ j => j ≤ i + 1 ∧ (all[i]?.map (·.lexeme) = some (.symbol s) → j = i + 1) := by
  intro c
  show Reading all c () (c.skip s).1 _
  unfold Cursor.skip
  split
  · next hat =>
    obtain ⟨t, ts, hc⟩ := exists_cons_of_ne_nil (Cursor.rest_ne_nil_of_at hat)
    exact .advance hc fun _ _ => ⟨Nat.le_refl _, fun _ => rfl⟩
  · next hat =>
    refine .stay fun i hi => ⟨Nat.le_succ i, fun hs => absurd ?_ hat⟩
    rw [Cursor.atSymbol, Cursor.at_, Cursor.peek?, hi.rest, head?_drop, hs]
    exact beq_self_eq_true _

theorem skipDeclKind : Reads all (move Cursor.skipDeclKind) fun _ _ _ => True := by
  intro c
  show Reading all c () c.skipDeclKind.1 _
  unfold Cursor.skipDeclKind
  split
  · exact .onward
  · exact .onward
  · exact .onward
  · exact .stay fun _ _ => trivial

theorem expectOf : Reads all (move Cursor.expectOf) fun _ _ _ => True := by
  intro c
  show Reading all c () c.expectOf.1 _
  by_cases hof : c.at_ (.keyword .of) = true
  · have hnext : c.expectOf = ⟨c.advance, c.size_advance_le⟩ := if_pos hof
    rw [hnext]
    exact .onward
  · have hnext : c.expectOf = (c.complain (.expectedOf c.peek?)).skipUntil .rightParen := if_neg hof
    rw [hnext]
    exact .complain (.skipUntil _ _)

theorem ifTake {g : (c : Cursor) → Option (β × Cursor.Past c)} {yes : β → Read α}
    (hg : ∀ {c b c1}, g c = some (b, c1) → c1.1 = c.advance)
    (hyes : ∀ b, Reads all (yes b) fun j a k => ∀ i, j = i + 1 → V i a k) (hno : Reads all no V) :
    Reads all (ifTake g yes no) V := by
  intro c
  unfold Read.ifTake
  rcases hc : g c with _ | ⟨b, c1, h1⟩
  · exact hno c
  · obtain rfl : c1 = c.advance := hg hc
    exact .take h1 (hyes b _)

theorem ifEat (hyes : Reads all yes fun j a k => ∀ i, j = i + 1 → V i a k) (hno : Reads all no V) :
    Reads all (ifEat l yes no) V := by
  intro c
  unfold Read.ifEat
  rcases hc : c.eat? l with _ | ⟨c1, h1⟩
  · exact hno c
  · obtain rfl : c1 = c.advance := eat?_eq_some hc
    exact .take h1 (hyes _)

theorem ifKnown {g : Cursor → Token → Option (Read α)}
    (hg : ∀ c t, ∀ x ∈ g c t, Reads all x fun j a k => ∀ i, j = i + 1 → all[i]? = some t → V i a k)
    (hno : Reads all no V) : Reads all (ifKnown g no) V := by
  intro c
  unfold Read.ifKnown
  rcases hc : c.next? with _ | ⟨t, c1, h1⟩
  · exact hno c
  · obtain ⟨ts, hrest, hadvance⟩ := next?_eq_some hc
    obtain rfl : c1 = c.advance := hadvance
    dsimp only
    cases hx : g c t with
    | none => exact hno c
    | some x =>
      have hfirst : Reading all c () c.advance fun i _ j => j = i + 1 ∧ all[i]? = some t :=
        .advance hrest fun _ h => ⟨rfl, h⟩
      exact hfirst.trans ((hg c t x hx c.advance).mono fun _ _ _ _ hV i _ h => hV i h.1 h.2)

theorem ifAt {p : Cursor → Bool} (hyes : ∀ c, p c → Reading all c (yes c).value (yes c).next V)
    (hno : Reads all no V) : Reads all (ifAt p yes no) V := by
  intro c
  unfold Read.ifAt
  cases hp : p c with
  | true => exact hyes c hp
  | false => exact hno c

theorem ifEnter {no : Read β} {f : α → Cursor → β}
    (hyes : Reads all yes fun i a j => ∀ c, At all c j → W i (f a c) j)
    (hno : ∀ c, Moves c (no c).next) :
    Reads all (ifEnter (do let a ← yes; move Cursor.leave; view (f a)) no) W := by
  intro c
  unfold Read.ifEnter Cursor.enter
  by_cases hfull : maxNesting ≤ c.depth
  · rw [if_pos hfull]
    refine ⟨Moves.enter_of_full.trans (hno _), fun _ hsame => ?_⟩
    have hlen := (hno ({ c with depth := c.depth + 1 }.complain .nestingTooDeep)).complaints.length_le
    exact absurd (hsame ▸ hlen) (by simp [Cursor.complain])
  · rw [if_neg hfull]
    have hyes := hyes { c with depth := c.depth + 1 }
    refine ⟨.leave hyes.moves, fun hi hsame => ?_⟩
    obtain ⟨j, hij, hj, hV⟩ := hyes.reads ⟨hi.le, hi.rest, hi.previous⟩ hsame
    have hleave : At all (yes { c with depth := c.depth + 1 }).next.leave.1 j := ⟨hj.le, hj.rest, hj.previous⟩
    exact ⟨j, hij, hleave, hV _ hleave⟩

theorem progressing (hx : Reads all x V) (hV : ∀ i a j, V i a j → i < j) :
    Reads all (progressing x) V := by
  intro c
  unfold Read.progressing
  split
  · next hpos =>
    have hmoves := Moves.progress c (x c).next (x c).le hpos
    refine ⟨(hx c).moves.trans hmoves, fun hi hsame => ?_⟩
    obtain ⟨j, hij, hj, hval⟩ := (hx c).reads hi ((hx c).moves.complaints_eq hmoves hsame)
    refine ⟨j, hij, ?_, hval⟩
    have hlt := hV _ _ _ hval
    have hsize : (x c).next.size ≠ c.size := by
      rw [Cursor.size, Cursor.size, hi.rest, hj.rest, length_drop, length_drop]
      have := hj.le
      omega
    simpa only [Cursor.progress, dif_neg hsize] using hj
  · exact hx c

end Reads

end ArrayKernel.Surface
