import ArrayKernel.Proofs.Surface.Readings

/-!
# Parsing ends

No call is nested deeper than the tokens left and the levels of the rules allow, and no level is
closed that is not open. A source is read as a routine only if all its tokens were taken without a
complaint (`parsing_terminates`).
-/

namespace ArrayKernel.Surface

/-! ## 1. Levels -/

theorem depth_enter (c : Cursor) : c.enter.next.depth = c.depth + 1 := by
  unfold Cursor.enter
  split <;> rfl

variable {c : Cursor}

theorem Closing.depth_pos (h : Closing c) : 0 < c.depth := by
  cases h with
  | block c =>
    have hopen := (Moves.expect c.enter.next .leftBrace).depth
    have hbody := (steps_rule .stmts (c.enter.next.expect .leftBrace).1).depth
    have hclose := (Moves.expect (parseStmts (c.enter.next.expect .leftBrace).1).next .rightBrace).depth
    have henter := depth_enter c
    exact Nat.lt_of_lt_of_le (by omega) (Nat.le_trans hbody hclose)
  | nested c =>
    have hbody : c.enter.next.depth ≤ (parseStmt c.enter.next).next.depth := (steps_rule .stmt c.enter.next).depth
    have henter := depth_enter c
    omega

/-! ## 2. Whole sources -/

open Read

namespace Rules

variable {R : Rules}

theorem value_kernel {arrow : Bool} {t : Token} {x : Read (Option Routine)}
    (hx : x ∈ R.kernel arrow t) : (x c).value ≠ none := by
  unfold kernel at hx
  split at hx
  · cases hx
    exact Option.some_ne_none _
  · split at hx
    · cases hx
      exact Option.some_ne_none _
    · cases hx

theorem opening_eq_none (h : (R.opening c).value = none) : (R.opening c).next.complaints ≠ [] := by
  revert h
  unfold opening ifKnown
  rcases c.next? with _ | ⟨t, c1, h1⟩
  · exact fun _ => List.cons_ne_nil _ _
  · cases hx : R.kernel c.arrowAhead t with
    | none =>
      simp only [hx]
      exact fun _ => List.cons_ne_nil _ _
    | some x =>
      simp only [hx]
      exact fun h => absurd h (value_kernel hx)

end Rules

/-! ## 3. Reading a source ends -/

theorem complaints_complainIf {bad : Bool} {f : Fault}
    (h : (c.complainIf bad f).1.complaints = []) : bad = false ∧ (c.complainIf bad f).1 = c := by
  cases bad with
  | true => cases h
  | false => exact ⟨rfl, rfl⟩

/-- A source that is read without a complaint is read to its end. -/
theorem rest_source_eq_nil (hclean : (parser.source c).next.complaints = []) :
    (parser.source c).next.rest = [] := by
  obtain ⟨c2, hlast⟩ : ∃ c2 : Cursor, (parser.source c).next = (c2.complainIf (!c2.atEnd) (.afterKernel c2.peek?)).1 :=
    ⟨_, rfl⟩
  rw [hlast] at hclean ⊢
  obtain ⟨hend, hsame⟩ := complaints_complainIf hclean
  rw [hsame]
  exact List.isEmpty_iff.1 (by simpa [Cursor.atEnd] using hend)

theorem source_eq_none (h : (parser.source c).value = none) :
    (parser.source c).next.complaints ≠ [] := by
  have hopening : (parser.opening c).next.complaints ≠ [] := Rules.opening_eq_none h
  have hmoves : Moves (parser.opening c).next (parser.source c).next :=
    (Moves.skip _ _).trans (Moves.complainIf _ _ _)
  intro hclean
  exact hopening (List.suffix_nil.1 (hclean ▸ hmoves.complaints))

/-- Reading a source ends, whatever its tokens are.

The rules have one solution in total functions. It is found within sixteen nested calls a token, however the calls past those
are answered, and without closing a level that is not open, since it does not matter what that does. A routine is given only
when all tokens are taken, nothing is complained about and no level is open, and what is not given is complained about. -/
theorem parsing_terminates (tokens : List Token) (stop : Span) :
    (∀ R : Rules, R = Rules.unfold Cursor.leave R ↔ R = parser) ∧
    (∀ (leave : (c : Cursor) → Cursor.Onward c) (stuck : Rules) (n : Nat),
      (∀ c, 0 < c.depth → leave c = c.leave) → 16 * tokens.length ≤ n →
      ((Rules.unfold leave)^[n] stuck).source { rest := tokens, stop } = parser.source { rest := tokens, stop }) ∧
    (match Routine.ofTokens tokens stop with
    | .ok r =>
      (parser.source { rest := tokens, stop }).value = some r ∧
      (parser.source { rest := tokens, stop }).next.rest = [] ∧
      (parser.source { rest := tokens, stop }).next.complaints = [] ∧
      (parser.source { rest := tokens, stop }).next.depth = 0
    | .error complaints =>
      complaints ≠ [] ∧ complaints = (parser.source { rest := tokens, stop }).next.complaints.reverse) := by
  refine ⟨fun R => eq_parser_iff, fun leave stuck n hleave hn => ?_, ?_⟩
  · refine Rules.source_congr fun r c hc => iterate_unfold (fun c hc => hleave c hc.depth_pos) stuck ?_
    have hroom := r.room_le c
    have hlevel := r.level_lt
    have hsize : c.size < tokens.length := hc
    unfold Rule.measure
    omega
  · have hmoves := Rules.steps_source steps_rule { rest := tokens, stop }
    rw [ofTokens_eq]
    rcases hvalue : (parser.source { rest := tokens, stop }).value with _ | r
    · rcases hcomplaints : (parser.source { rest := tokens, stop }).next.complaints with _ | ⟨f, fs⟩
      · exact absurd hcomplaints (source_eq_none hvalue)
      · simp
    · rcases hcomplaints : (parser.source { rest := tokens, stop }).next.complaints with _ | ⟨f, fs⟩
      · exact ⟨rfl, rest_source_eq_nil hcomplaints, rfl, hmoves.level hcomplaints⟩
      · simp

end ArrayKernel.Surface
