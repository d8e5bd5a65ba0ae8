import ArrayKernel.Proofs.Surface.Names
import ArrayKernel.Proofs.Surface.Readings

/-!
# Spans are well nested

The scanner gives tokens that take something and do not overlap (`scanFrom_tokens`), and the grammar
lays its trees out over them (`Rules.reads_source`). So in the tree of a source every span reaches
from one token to another, a node holds the nodes below it, and these come one after another
(`wellNested_parse`).
-/

namespace ArrayKernel.Surface

open Text List

variable {cs : List Char}

/-! ## 1. Tokens of a source -/

theorem length_takeWhile_le {p : Char → Bool} : (cs.takeWhile p).length ≤ cs.length :=
  (takeWhile_sublist p).length_le

theorem readExponent_le {w : Nat} {e : Int} (h : readExponent cs = some (w, e)) :
    w ≤ cs.length := by
  unfold readExponent at h
  grind [length_takeWhile_le]

theorem readDecimal_le : (readDecimal cs).width ≤ cs.length := by
  have hwhole (p : Char → Bool) : (cs.takeWhile p).length + (cs.dropWhile p).length = cs.length := by
    rw [← length_append, takeWhile_append_dropWhile]
  fun_cases readDecimal cs with
  | case1 digit whole afterWhole point fraction hpoint mantissa plain width e hexponent =>
    have := readExponent_le hexponent
    grind [length_takeWhile_le]
  | case2 digit | case3 digit =>
    grind [length_takeWhile_le]

theorem readNumber_le (cs : List Char) : (readNumber cs).width ≤ cs.length := by
  unfold readNumber
  grind [length_takeWhile_le, readDecimal_le]

theorem read?_le {s : Symbol} {n : Nat} (h : Symbol.read? cs = some (s, n)) : n ≤ cs.length := by
  obtain ⟨p, hp, heq⟩ := Option.map_eq_some_iff.1 h
  cases heq
  have hp := find?_some hp
  have hstart := isPrefixOf_iff_prefix.1 hp
  exact hstart.length_le

theorem width_lead {c : Char} {l : Lexeme} (h : (lead c cs).word = some l) :
    (lead c cs).width ≤ cs.length + 1 := by
  have hnumber := readNumber_le (c :: cs)
  have hsymbol := @read?_le (c :: cs)
  unfold lead at h ⊢
  grind [length_takeWhile_le]

theorem scanFrom_tokens (file pos : Nat) (cs : List Char) :
    (∀ t ∈ (scanFrom file pos cs).tokens, t.span.file = file ∧ pos ≤ t.span.start
      ∧ t.span.start < t.span.stop ∧ t.span.stop ≤ pos + cs.length) ∧
    (scanFrom file pos cs).tokens.Pairwise fun a b => a.span.stop ≤ b.span.start := by
  fun_induction scanFrom file pos cs with
  | case1 => exact ⟨by simp, .nil⟩
  | case2 pos c rest l width tail ih =>
    obtain ⟨htail, hapart⟩ := ih
    cases hw : l.word with
    | none => exact ⟨fun t ht => by have := htail t ht; grind, hapart⟩
    | some w =>
      have hwidth := width_lead hw
      refine ⟨fun t ht => ?_, .cons (fun t ht => (htail t ht).2.1) hapart⟩
      rcases mem_cons.1 ht with rfl | ht
      · grind
      · have := htail t ht
        grind

theorem inOrder_scan (file : Nat) (source : String) : InOrder (scan file source).tokens := by
  obtain ⟨htokens, hapart⟩ := scanFrom_tokens file 0 (octets source)
  have hget {i : Nat} (hi : i < (scan file source).tokens.length) :
      spanAt (scan file source).tokens i = ((scan file source).tokens[i]).span := spanAt_eq (getElem?_eq_getElem hi)
  refine ⟨fun hi => ?_, fun {i j} hij hj => ?_⟩
  · rw [hget hi]
    exact (htokens _ (getElem_mem hi)).2.2.1
  · rw [hget (Nat.lt_trans hij hj), hget hj]
    exact pairwise_iff_getElem.1 hapart i j _ hj hij

/-- The tree of a source is laid out over its tokens. -/
theorem covers_parse {file : Nat} {source : String} {r : Routine}
    (h : Routine.parse file source = .ok r) : ∃ k, Covers (scan file source).tokens 0 k r.node := by
  unfold Routine.parse at h
  dsimp only at h
  split at h
  · rw [ofTokens_eq] at h
    have hsource := Rules.reads_source (inOrder_scan file source) (reads_rule (inOrder_scan file source))
      { rest := (scan file source).tokens, stop := ⟨file, (scan file source).stop, (scan file source).stop⟩ }
    split at h
    · next r' hvalue hclean =>
      cases h
      obtain ⟨j, -, -, hr⟩ := hsource.reads ⟨Nat.zero_le _, rfl, nofun⟩ hclean
      exact hr r hvalue
    · cases h
  · cases h

/-! ## 2. Nodes and the nodes below them -/

variable {tokens : List Token} {i j : Nat} {n m : Node} {file : Nat} {source : String} {r : Routine}
  {ns : List Node}

/-- A node takes something, from the start of a token to the end of one. It holds the nodes below
it, and of these each ends before the next one starts, unless they are the name and the value of a
member that is written once. -/
structure Node.WellNested (tokens : List Token) (n : Node) : Prop where
  nonempty : n.span.start < n.span.stop
  starts : ∃ t ∈ tokens, t.span.file = n.span.file ∧ t.span.start = n.span.start
  stops : ∃ t ∈ tokens, t.span.stop = n.span.stop
  inside : ∀ k ∈ n.kids, n.span.start ≤ k.span.start ∧ k.span.stop ≤ n.span.stop
  apart : n.kids.Pairwise (fun a b => a.span.stop ≤ b.span.start) ∨ ∃ s k, n = .member s k k

theorem Row.mem (h : Row (Covers tokens) i j ns) :
    i ≤ j ∧ ∀ n ∈ ns, ∃ k l, i ≤ k ∧ l ≤ j ∧ Covers tokens k l n := by
  induction h with
  | nil h => exact ⟨h, nofun⟩
  | cons hn _ hi ih =>
    have := hn.bounds
    refine ⟨by omega, fun m hm => ?_⟩
    rcases mem_cons.1 hm with rfl | hm
    · exact ⟨_, _, hi, ih.1, hn⟩
    · obtain ⟨k, l, hk, hl, hm⟩ := ih.2 m hm
      exact ⟨k, l, by omega, hl, hm⟩

theorem Row.apart (hall : InOrder tokens) (h : Row (Covers tokens) i j ns) :
    ns.Pairwise fun a b => a.span.stop ≤ b.span.start := by
  induction h with
  | nil => exact .nil
  | cons hn hns hi ih =>
    refine .cons (fun m hm => ?_) ih
    obtain ⟨k, l, hk, hl, hm⟩ := hns.mem.2 m hm
    have := hn.bounds
    have := hm.bounds
    rw [hn.span, hm.span]
    exact hall.apart (by omega) (by omega)

theorem Covers.kids (h : Covers tokens i j n) :
    Row (Covers tokens) i j n.kids ∨ ∃ s k, n = .member s k k ∧ Covers tokens i j k := by
  cases h with
  | word hi hk => exact .inl (.nil (by omega))
  | plain _ _ h => exact .inl h
  | member hn hv hjk => exact .inl (.cons hn (.cons hv (.nil (by omega)) (by omega)) (by omega))
  | shorthand hn => exact .inr ⟨_, _, rfl, hn⟩

theorem Covers.mem_kids (h : Covers tokens i j n) (hm : m ∈ n.kids) :
    ∃ k l, i ≤ k ∧ l ≤ j ∧ Covers tokens k l m := by
  rcases h.kids with hrow | ⟨s, k, rfl, hk⟩
  · exact hrow.mem.2 m hm
  · have hm : m = k := by simpa [Node.kids] using hm
    exact ⟨i, j, Nat.le_refl i, Nat.le_refl j, hm ▸ hk⟩

theorem Covers.within (h : Covers tokens i j n) (hm : m.Within n) : ∃ k l, Covers tokens k l m := by
  induction hm generalizing i j with
  | refl => exact ⟨i, j, h⟩
  | kid hk _ ih =>
    obtain ⟨k, l, -, -, hk⟩ := h.mem_kids hk
    exact ih hk

theorem Covers.spelled {text : String} {s : Span}
    (h : Covers (scan file source).tokens i j (.word s text)) :
    Over isIdentifierPart text ∧ text ≠ "this" := by
  cases h with
  | @word _ _ _ t _ _ _ _ ht htext =>
    have hspelled := spelled_scanFrom t (mem_of_getElem? ht)
    generalize t.lexeme = l at htext hspelled
    unfold Lexeme.text? at htext
    split at htext
    · cases htext
      refine ⟨hspelled.1, ?_⟩
      rintro rfl
      exact absurd hspelled.2 (by decide)
    · cases htext
      exact ⟨.literal rfl, by decide⟩
    · cases htext
      exact ⟨.literal rfl, by decide⟩
    · cases htext

theorem spelled_name (h : Routine.parse file source = .ok r) :
    ∀ n ∈ r.name, Over isIdentifierPart n.text := by
  obtain ⟨k, hr⟩ := covers_parse h
  intro n hn
  obtain ⟨i, j, -, -, hword⟩ := hr.mem_kids (m := .ofName n) (by cases r; cases hn; simp [Routine.node, Node.kids])
  exact hword.spelled.1

theorem Covers.wellNested (hall : InOrder tokens) (h : Covers tokens i j n) :
    n.WellNested tokens := by
  obtain ⟨hij, hj⟩ := h.bounds
  have hget {k : Nat} (hk : k < tokens.length) : ∃ t ∈ tokens, t.span = spanAt tokens k :=
    ⟨tokens[k], getElem_mem hk, (spanAt_eq (getElem?_eq_getElem hk)).symm⟩
  obtain ⟨t, ht, hstart⟩ := hget (Nat.lt_of_lt_of_le hij hj)
  obtain ⟨u, hu, hstop⟩ := hget (k := j - 1) (by omega)
  refine ⟨?_, ⟨t, ht, ?_⟩, ⟨u, hu, ?_⟩, fun k hk => ?_, ?_⟩
  · rw [h.span]
    exact Nat.lt_of_lt_of_le (hall.nonempty (by omega)) (hall.stop_le (by omega) (by omega))
  · rw [h.span, hstart]
    exact ⟨rfl, rfl⟩
  · rw [h.span, hstop]
    rfl
  · obtain ⟨a, b, ha, hb, hk⟩ := h.mem_kids hk
    have := hk.bounds
    rw [h.span, hk.span]
    exact ⟨hall.start_le ha (by omega), hall.stop_le (by omega) (by omega)⟩
  · rcases h.kids with hrow | ⟨s, k, rfl, -⟩
    · exact .inl (hrow.apart hall)
    · exact .inr ⟨s, k, rfl⟩

/-- Every node of a routine that is read from a source is well nested, and lies within the source.
-/
theorem wellNested_parse (h : Routine.parse file source = .ok r) (hn : n.Within r.node) :
    n.WellNested (scan file source).tokens ∧ n.span.file = file ∧ n.span.stop ≤ (octets source).length := by
  have hall := inOrder_scan file source
  obtain ⟨k, hr⟩ : ∃ k, Covers (scan file source).tokens 0 k r.node := covers_parse h
  obtain ⟨i, j, hn⟩ := hr.within hn
  have hnested := hn.wellNested hall
  obtain ⟨t, ht, hfile, -⟩ := hnested.starts
  obtain ⟨u, hu, hstop⟩ := hnested.stops
  have htokens := (scanFrom_tokens file 0 (octets source)).1
  refine ⟨hnested, hfile ▸ (htokens t ht).1, ?_⟩
  have := (htokens u hu).2.2.2
  omega

def nestedSource : String :=
  "function f(a: m.v, b) { let p = (a)[0].xy; return { b, k: (x) => x + p }; }"

theorem wellNested_nestedSource :
    ∃ r, Routine.parse 0 nestedSource = .ok r ∧ r.node.WellNested (scan 0 nestedSource).tokens := by
  cases h : Routine.parse 0 nestedSource with
  | ok r => exact ⟨r, rfl, (wellNested_parse h .refl).1⟩
  | error e =>
    have hok : (Routine.parse 0 nestedSource).isOk := by decide +kernel
    rw [h] at hok
    cases hok

end ArrayKernel.Surface
